import PnyxDB.Consensus.Structures
import Mathlib.Data.List.Perm.Subperm
import Mathlib.Logic.Relation

/-!
How the gossipsub network (`network/gossipsub`) hands the messages it receives to the consumers of
`Accept`. `run` unpacks each message of the subscription and, under the read lock, sends it to the
`input` channel of every registered acceptor that takes it; a message no acceptor takes is appended
to `pending` under the write lock, which `run` takes after releasing the read lock. `Accept`
registers an acceptor under the write lock, takes the pending messages it accepts out of `pending`
and leaves them to a goroutine that sends them to `input`; a second goroutine forwards `input` to
the consumer. When the context of an `Accept` ends, both goroutines give up the messages they still
have, and the second one unregisters the acceptor. Each of these is a step here, and the steps of
the goroutines interleave in any order.

* `dispatch_inv` — over every interleaving, a receiver is handed only messages its acceptor takes,
  and none more often than `run` unpacked it; it holds only messages it was handed, and all of them
  while its context is live; every message unpacked is pending, being parked, or was handed to a
  receiver: the network loses none, and a receiver loses messages only once its context has ended.
* `present_receiver_keeps` — a receiver registered when `run` dispatches a message it accepts holds
  that message from then on, as long as its context is live.
* `late_acceptor_misses_parked` — an `Accept` that registers between `run`'s dispatch of a message
  and its parking finds `pending` without it: the message is parked although the new acceptor takes
  it, and only a later `Accept` can take it out.

The capacity of `input` (a full channel blocks `run` under the read lock) is left out; unpacking
errors skip the message.
-/

namespace PnyxDB.Network.Gossipsub

open PnyxDB.Consensus

/-- What `network` holds for one `Accept` call: its acceptor, the messages its channel `input`
buffers, the pending messages its first goroutine has still to send to `input`, the messages the
consumer read from `output`, in order, whether the call's context has ended, whether the acceptor is
still registered, and, as a ghost, every message handed to it, in order. -/
structure Receiver (Msg : Type) where
  acceptor : Msg → Bool
  input : List Msg
  toSend : List Msg
  received : List Msg
  done : Bool
  registered : Bool
  given : List Msg

/-- Every message the receiver holds: read by the consumer, in `input`, or still to send. -/
def Receiver.held {Msg : Type} (r : Receiver Msg) : List Msg := r.received ++ r.input ++ r.toSend

/-- `run` hands `m` to the receiver: its acceptor is registered and takes `m`. -/
def Receiver.takes {Msg : Type} (r : Receiver Msg) (m : Msg) : Bool := r.registered && r.acceptor m

/-- The state `run` and `Accept` share: every receiver an `Accept` created, in the order of the
calls (`n.acceptors` and `n.receivers` of the code are the registered ones, in that order),
`pending`, the message `run` has found no acceptor for and not yet parked, and, as a ghost, the
messages `run` unpacked, in order. -/
structure Network (Msg : Type) where
  receivers : List (Receiver Msg)
  pending : List Msg
  parking : Option Msg
  unpacked : List Msg

/-- A step of `run`, of `Accept`, of the goroutines of an `Accept`, or of its context. -/
inductive Event (Msg : Type)
  /-- `run` unpacked `m` and sends it, under the read lock, to every acceptor that takes it. -/
  | deliver (m : Msg)
  /-- `run` appends the message no acceptor took to `pending`, under the write lock. -/
  | park
  /-- `Accept(ctx, acceptor)`, under the write lock. -/
  | accept (acceptor : Msg → Bool)
  /-- The first goroutine of the `i`-th `Accept` sends its next pending message to `input`. -/
  | send (i : Nat)
  /-- The `i`-th consumer reads the next message of `input` through `output`. -/
  | read (i : Nat)
  /-- The context of the `i`-th `Accept` ends. -/
  | cancel (i : Nat)
  /-- The second goroutine of the `i`-th `Accept` has seen its context end: it unregisters the
  acceptor under the write lock, and the messages left in `input` or still to send are lost. -/
  | unregister (i : Nat)

variable {Msg : Type}

namespace Network

/-- The network `New` returns: no acceptor, nothing pending. -/
def init : Network Msg := ⟨[], [], none, []⟩

/-- One pass of the loop of `run` over the acceptors: `m` into the receiver's `input` if its
acceptor is registered and takes it. -/
def give (m : Msg) (r : Receiver Msg) : Receiver Msg :=
  if r.takes m then { r with input := r.input ++ [m], given := r.given ++ [m] } else r

/-- The loop of `run` over the acceptors for `m`. -/
def dispatch (m : Msg) (rs : List (Receiver Msg)) : List (Receiver Msg) := rs.map (give m)

/-- The network after a step, `none` when the step cannot run: `run` takes a new message only once
it has parked the last one, a goroutine has to have a message to pass on, a context ends once, and
the acceptor is unregistered once its context has ended. Reads and sends go on after the context
ended, as Go's `select` may still pick the channel. -/
def step (n : Network Msg) : Event Msg → Option (Network Msg)
  | .deliver m =>
    if n.parking.isSome then none
    else some { n with
      receivers := dispatch m n.receivers
      parking := if n.receivers.any (·.takes m) then none else some m
      unpacked := n.unpacked ++ [m] }
  | .park => n.parking.map fun m => { n with pending := n.pending ++ [m], parking := none }
  | .accept f => some { n with
      receivers := n.receivers ++ [⟨f, [], n.pending.filter f, [], false, true, n.pending.filter f⟩]
      pending := n.pending.filter fun m => !f m }
  | .send i =>
    match n.receivers[i]? with
    | some r =>
      match r.toSend with
      | m :: rest => some { n with
          receivers := n.receivers.set i { r with input := r.input ++ [m], toSend := rest } }
      | [] => none
    | none => none
  | .read i =>
    match n.receivers[i]? with
    | some r =>
      match r.input with
      | m :: rest => some { n with
          receivers := n.receivers.set i { r with input := rest, received := r.received ++ [m] } }
      | [] => none
    | none => none
  | .cancel i =>
    match n.receivers[i]? with
    | some r =>
      if r.done then none else some { n with receivers := n.receivers.set i { r with done := true } }
    | none => none
  | .unregister i =>
    match n.receivers[i]? with
    | some r =>
      if r.done && r.registered then
        some { n with
          receivers := n.receivers.set i { r with registered := false, input := [], toSend := [] } }
      else none
    | none => none

/-- One step of any kind. -/
def Step (n n' : Network Msg) : Prop := ∃ ev, n.step ev = some n'

/-- The networks some interleaving reaches from `init`. -/
def Reachable (n : Network Msg) : Prop := Relation.ReflTransGen Step init n

end Network

namespace Receiver

/-- What the goroutines of an `Accept`, or the end of its context, do to its receiver: the acceptor
and the messages handed to it stay, it holds no new message, and it loses messages only once its
context has ended, which then stays ended. -/
structure Follows (r r' : Receiver Msg) : Prop where
  acceptor : r'.acceptor = r.acceptor
  given : r'.given = r.given
  held : r'.held.Sublist r.held
  live : r'.done = false → r.done = false ∧ r'.held = r.held

theorem Follows.refl (r : Receiver Msg) : r.Follows r := ⟨rfl, rfl, .refl _, fun h => ⟨h, rfl⟩⟩

/-- `r'` is `r` some steps later: the same acceptor, every message handed to `r` handed to `r'`,
and, while the context is live, every message `r` held still held. -/
structure Later (r r' : Receiver Msg) : Prop where
  acceptor : r'.acceptor = r.acceptor
  given : r.given ⊆ r'.given
  live : r'.done = false → r.done = false ∧ r.held ⊆ r'.held

theorem Later.trans {r r' r'' : Receiver Msg} (h : r.Later r') (h' : r'.Later r'') :
    r.Later r'' :=
  ⟨h'.acceptor.trans h.acceptor, fun _ hx => h'.given (h.given hx), fun hd =>
    let ⟨hd', hs'⟩ := h'.live hd
    let ⟨hd0, hs⟩ := h.live hd'
    ⟨hd0, fun _ hx => hs' (hs hx)⟩⟩

theorem Follows.later {r r' : Receiver Msg} (h : r.Follows r') : r.Later r' :=
  ⟨h.acceptor, fun _ hx => h.given ▸ hx, fun hd => ⟨(h.live hd).1, fun _ hx => (h.live hd).2 ▸ hx⟩⟩

end Receiver

namespace Network

/-! ### What each step does -/

@[simp] theorem give_acceptor (m : Msg) (r : Receiver Msg) : (give m r).acceptor = r.acceptor := by
  unfold give
  split_ifs <;> rfl

@[simp] theorem give_done (m : Msg) (r : Receiver Msg) : (give m r).done = r.done := by
  unfold give
  split_ifs <;> rfl

theorem given_give (m : Msg) (r : Receiver Msg) :
    (give m r).given = r.given ++ if r.takes m then [m] else [] := by
  unfold give
  split_ifs <;> simp

theorem held_give (m : Msg) (r : Receiver Msg) :
    (give m r).held.Perm (r.held ++ if r.takes m then [m] else []) := by
  unfold give
  split_ifs
  · simpa [Receiver.held] using
      ((List.perm_append_singleton m r.toSend).symm.append_left r.input).append_left r.received
  · simp

/-- `run`'s pass over a receiver hands it at most `m`, and it keeps what it held. -/
theorem give_later (m : Msg) (r : Receiver Msg) : r.Later (give m r) :=
  ⟨give_acceptor m r, by rw [given_give]; exact List.subset_append_left _ _, fun hd =>
    ⟨by simpa using hd, fun _ hx => (held_give m r).mem_iff.2 (List.mem_append_left _ hx)⟩⟩

theorem getElem?_dispatch {m : Msg} {rs : List (Receiver Msg)} {j : Nat} {r : Receiver Msg}
    (h : (dispatch m rs)[j]? = some r) : ∃ r0, rs[j]? = some r0 ∧ r = give m r0 := by
  simp only [dispatch, List.getElem?_map] at h
  obtain ⟨r0, h0, rfl⟩ := Option.map_eq_some'.1 h
  exact ⟨r0, h0, rfl⟩

theorem step_deliver {n n' : Network Msg} {m : Msg} (h : n.step (.deliver m) = some n') :
    n.parking = none ∧ n' = { n with
      receivers := dispatch m n.receivers
      parking := if n.receivers.any (·.takes m) then none else some m
      unpacked := n.unpacked ++ [m] } := by
  by_cases hp : n.parking.isSome
  · simp [step, hp] at h
  · simp only [step] at h
    rw [if_neg hp, Option.some.injEq] at h
    exact ⟨by simpa using hp, h.symm⟩

theorem step_park {n n' : Network Msg} (h : n.step .park = some n') :
    ∃ m, n.parking = some m ∧ n' = { n with pending := n.pending ++ [m], parking := none } := by
  simp only [step] at h
  obtain ⟨m, hp, rfl⟩ := Option.map_eq_some'.1 h
  exact ⟨m, hp, rfl⟩

/-- The goroutines of an `Accept` and the end of its context change its receiver alone, as
`Follows` says. -/
theorem step_local {n n' : Network Msg} (i : Nat) {ev : Event Msg}
    (hev : ev = .send i ∨ ev = .read i ∨ ev = .cancel i ∨ ev = .unregister i)
    (h : n.step ev = some n') :
    ∃ r r', n.receivers[i]? = some r ∧ r.Follows r' ∧
      n' = { n with receivers := n.receivers.set i r' } := by
  rcases hev with rfl | rfl | rfl | rfl <;> simp only [step] at h <;> split at h <;>
    try cases h
  all_goals rename_i r hr
  · split at h
    · rename_i m rest ht
      refine ⟨r, _, hr, ?_, (Option.some.inj h).symm⟩
      exact ⟨rfl, rfl, by simp [Receiver.held, ht], fun hd => ⟨hd, by simp [Receiver.held, ht]⟩⟩
    · cases h
  · split at h
    · rename_i m rest ht
      refine ⟨r, _, hr, ?_, (Option.some.inj h).symm⟩
      exact ⟨rfl, rfl, by simp [Receiver.held, ht], fun hd => ⟨hd, by simp [Receiver.held, ht]⟩⟩
    · cases h
  · split_ifs at h
    refine ⟨r, _, hr, ?_, (Option.some.inj h).symm⟩
    exact ⟨rfl, rfl, .refl _, fun h => by simp at h⟩
  · split_ifs at h with hd
    refine ⟨r, _, hr, ?_, (Option.some.inj h).symm⟩
    exact ⟨rfl, rfl, by simp [Receiver.held], fun h => by simp_all⟩

/-- After the `i`-th receiver is set to one that follows it, each receiver follows the one that
was at its index. -/
theorem set_follows_old {rs : List (Receiver Msg)} {i j : Nat} {r0 r' x : Receiver Msg}
    (hr0 : rs[i]? = some r0) (hf : r0.Follows r') (hx : (rs.set i r')[j]? = some x) :
    ∃ y, rs[j]? = some y ∧ y.Follows x := by
  rcases getElem?_set_eq_some hx with ⟨rfl, rfl⟩ | ⟨-, hx⟩
  · exact ⟨r0, hr0, hf⟩
  · exact ⟨x, hx, .refl x⟩

theorem set_follows_new {rs : List (Receiver Msg)} {i j : Nat} {r0 r' y : Receiver Msg}
    (hr0 : rs[i]? = some r0) (hf : r0.Follows r') (hy : rs[j]? = some y) :
    ∃ x, (rs.set i r')[j]? = some x ∧ y.Follows x := by
  by_cases hij : i = j
  · subst hij
    cases hy.symm.trans hr0
    exact ⟨r', by simp [List.getElem?_set, (List.getElem?_eq_some_iff.1 hy).1], hf⟩
  · exact ⟨y, by rw [List.getElem?_set_ne hij]; exact hy, .refl y⟩

/-! ### Over every interleaving -/

/-- What holds of the network between two steps. -/
structure Inv (n : Network Msg) : Prop where
  /-- A receiver is handed only messages its acceptor takes, -/
  accepted : ∀ (j : Nat) (r : Receiver Msg), n.receivers[j]? = some r →
    ∀ m ∈ r.given, r.acceptor m = true
  /-- and no message more often than `run` unpacked it. -/
  once : ∀ (j : Nat) (r : Receiver Msg), n.receivers[j]? = some r → r.given.Subperm n.unpacked
  /-- It holds only messages it was handed, -/
  handed : ∀ (j : Nat) (r : Receiver Msg), n.receivers[j]? = some r → r.held.Subperm r.given
  /-- all of them while its context is live. -/
  live : ∀ (j : Nat) (r : Receiver Msg), n.receivers[j]? = some r → r.done = false →
    r.held.Perm r.given
  /-- `pending` and `run` hold no message more often than `run` unpacked it. -/
  parked : (n.pending ++ n.parking.toList).Subperm n.unpacked
  /-- Every message unpacked is pending, being parked, or was handed to a receiver. -/
  kept : ∀ m ∈ n.unpacked, m ∈ n.pending ∨ n.parking = some m ∨
    ∃ (j : Nat) (r : Receiver Msg), n.receivers[j]? = some r ∧ m ∈ r.given

theorem Inv.init : (init : Network Msg).Inv :=
  ⟨fun _ _ h => by simp [Network.init] at h, fun _ _ h => by simp [Network.init] at h,
    fun _ _ h => by simp [Network.init] at h, fun _ _ h => by simp [Network.init] at h,
    by simp [Network.init], fun _ h => by simp [Network.init] at h⟩

/-- The goroutines of an `Accept` and the end of its context keep the invariant. -/
theorem Inv.local {n : Network Msg} (hi : n.Inv) {i : Nat} {r r' : Receiver Msg}
    (hr : n.receivers[i]? = some r) (hf : r.Follows r') :
    ({ n with receivers := n.receivers.set i r' } : Network Msg).Inv := by
  refine ⟨fun j x h => ?_, fun j x h => ?_, fun j x h => ?_, fun j x h hd => ?_, hi.parked,
    fun m hm => ?_⟩
  · obtain ⟨y, hy, hyx⟩ := set_follows_old hr hf h
    simpa [hyx.acceptor, hyx.given] using hi.accepted j y hy
  · obtain ⟨y, hy, hyx⟩ := set_follows_old hr hf h
    exact hyx.given ▸ hi.once j y hy
  · obtain ⟨y, hy, hyx⟩ := set_follows_old hr hf h
    exact hyx.given ▸ hyx.held.subperm.trans (hi.handed j y hy)
  · obtain ⟨y, hy, hyx⟩ := set_follows_old hr hf h
    obtain ⟨hd', hh⟩ := hyx.live hd
    exact hyx.given ▸ hh ▸ hi.live j y hy hd'
  · rcases hi.kept m hm with h | h | ⟨j, y, hy, hmy⟩
    · exact .inl h
    · exact .inr (.inl h)
    obtain ⟨x, hx, hyx⟩ := set_follows_new hr hf hy
    exact .inr (.inr ⟨j, x, hx, hyx.given ▸ hmy⟩)

theorem Inv.deliver {n n' : Network Msg} (hi : n.Inv) {m : Msg}
    (h : n.step (.deliver m) = some n') : n'.Inv := by
  obtain ⟨hnone, rfl⟩ := step_deliver h
  have hpend : n.pending.Subperm n.unpacked := by simpa [hnone] using hi.parked
  refine ⟨fun j x hx => ?_, fun j x hx => ?_, fun j x hx => ?_, fun j x hx hd => ?_, ?_,
    fun m' hm' => ?_⟩
  · obtain ⟨y, hy, rfl⟩ := getElem?_dispatch hx
    intro m' hm'
    rw [given_give, List.mem_append] at hm'
    rcases hm' with h | h
    · simpa using hi.accepted j y hy m' h
    · split_ifs at h with ht
      · obtain rfl := List.mem_singleton.1 h
        simp only [Receiver.takes, Bool.and_eq_true] at ht
        simpa using ht.2
      · simp at h
  · obtain ⟨y, hy, rfl⟩ := getElem?_dispatch hx
    show (give m y).given.Subperm (n.unpacked ++ [m])
    rw [given_give]
    split_ifs
    · exact (List.subperm_append_right _).2 (hi.once j y hy)
    · rw [List.append_nil]
      exact (hi.once j y hy).trans (List.sublist_append_left _ _).subperm
  · obtain ⟨y, hy, rfl⟩ := getElem?_dispatch hx
    rw [given_give]
    exact (held_give m y).subperm.trans ((List.subperm_append_right _).2 (hi.handed j y hy))
  · obtain ⟨y, hy, rfl⟩ := getElem?_dispatch hx
    rw [given_give]
    exact (held_give m y).trans ((hi.live j y hy (by simpa using hd)).append_right _)
  · by_cases hany : n.receivers.any (·.takes m) = true
    · simp only [hany, if_true, Option.toList_none, List.append_nil]
      exact hpend.trans (List.sublist_append_left _ _).subperm
    · simp only [hany, if_false, Option.toList_some]
      exact (List.subperm_append_right _).2 hpend
  · have hdisp : ∀ (j : Nat) (y : Receiver Msg), n.receivers[j]? = some y →
        (dispatch m n.receivers)[j]? = some (give m y) :=
      fun j y hy => by simp [dispatch, hy]
    rcases List.mem_append.1 hm' with hm' | hm'
    · rcases hi.kept m' hm' with h | h | ⟨j, y, hy, hmy⟩
      · exact .inl h
      · simp [hnone] at h
      · exact .inr (.inr ⟨j, _, hdisp j y hy, (give_later m y).given hmy⟩)
    · obtain rfl : m' = m := List.mem_singleton.1 hm'
      by_cases hany : n.receivers.any (·.takes m') = true
      · obtain ⟨y, hy, ht⟩ := List.any_eq_true.1 hany
        obtain ⟨j, hj⟩ := List.mem_iff_getElem?.1 hy
        exact .inr (.inr ⟨j, _, hdisp j y hj, by simp [given_give, ht]⟩)
      · exact .inr (.inl (by simp [hany]))

theorem Inv.park {n n' : Network Msg} (hi : n.Inv) (h : n.step .park = some n') : n'.Inv := by
  obtain ⟨m, hp, rfl⟩ := step_park h
  refine ⟨hi.accepted, hi.once, hi.handed, hi.live, by simpa [hp] using hi.parked,
    fun m' hm' => ?_⟩
  rcases hi.kept m' hm' with h | h | h
  · exact .inl (List.mem_append_left _ h)
  · rw [hp] at h
    cases h
    exact .inl (List.mem_append_right _ (List.mem_singleton_self _))
  · exact .inr (.inr h)

theorem Inv.accept {n n' : Network Msg} (hi : n.Inv) {f : Msg → Bool}
    (h : n.step (.accept f) = some n') : n'.Inv := by
  simp only [step, Option.some.injEq] at h
  subst h
  have hpend : n.pending.Subperm n.unpacked :=
    (List.sublist_append_left _ _).subperm.trans hi.parked
  refine ⟨fun j x hx => ?_, fun j x hx => ?_, fun j x hx => ?_, fun j x hx _ => ?_, ?_,
    fun m hm => ?_⟩
  all_goals try rcases getElem?_concat_eq_some hx with hx | ⟨-, rfl⟩
  · exact hi.accepted j x hx
  · exact fun m hm => (List.mem_filter.1 hm).2
  · exact hi.once j x hx
  · exact (List.filter_sublist _).subperm.trans hpend
  · exact hi.handed j x hx
  · simp only [Receiver.held, List.nil_append]
    exact (List.Perm.refl _).subperm
  · exact hi.live j x hx ‹_›
  · simp [Receiver.held]
  · exact ((List.filter_sublist _).append_right _).subperm.trans hi.parked
  · rcases hi.kept m hm with h | h | ⟨j, y, hy, hmy⟩
    · by_cases hf : f m
      · exact .inr (.inr ⟨n.receivers.length,
          ⟨f, [], n.pending.filter f, [], false, true, n.pending.filter f⟩, by simp,
          List.mem_filter.2 ⟨h, hf⟩⟩)
      · exact .inl (List.mem_filter.2 ⟨h, by simp [hf]⟩)
    · exact .inr (.inl h)
    · exact .inr (.inr ⟨j, y, by rw [List.getElem?_append_left
        (List.getElem?_eq_some_iff.1 hy).1]; exact hy, hmy⟩)

theorem Inv.step {n n' : Network Msg} (hi : n.Inv) {ev : Event Msg} (h : n.step ev = some n') :
    n'.Inv := by
  cases ev with
  | deliver m => exact hi.deliver h
  | park => exact hi.park h
  | accept f => exact hi.accept h
  | send i | read i | cancel i | unregister i =>
    obtain ⟨r, r', hr, hf, rfl⟩ := step_local i (by simp) h
    exact hi.local hr hf

/-- Over every interleaving of `run`, `Accept`, the goroutines of `Accept` and the ends of their
contexts, a receiver is handed only messages its acceptor takes and none more often than `run`
unpacked it, holds only messages it was handed and all of them while its context is live, `pending`
holds no message more often than `run` unpacked it, and every message `run` unpacked is pending,
being parked, or was handed to a receiver. -/
theorem dispatch_inv {n : Network Msg} (h : n.Reachable) : n.Inv := by
  induction h with
  | refl => exact Inv.init
  | tail _ hs ih => exact ih.step hs.choose_spec

/-- A query reaches the network before its acceptor registers and is parked; the acceptor takes it
from `pending`, and its context ends before the query reaches the consumer, which loses it. -/
theorem dispatch_inv_cancelled :
    let f : String → Bool := (· == "query")
    let n : Network String := ⟨[⟨f, [], [], [], true, false, ["query"]⟩], [], none, ["query"]⟩
    n.Reachable ∧ n.Inv := by
  intro f n
  have hn : n.Reachable := .tail (.tail (.tail (.tail (.tail .refl ⟨.deliver "query", rfl⟩)
    ⟨.park, rfl⟩) ⟨.accept f, rfl⟩) ⟨.cancel 0, rfl⟩) ⟨.unregister 0, rfl⟩
  exact ⟨hn, dispatch_inv hn⟩

/-! ### Receivers keep what they were given -/

/-- Every step keeps each receiver, as a later version of it. -/
theorem step_later {n n' : Network Msg} {ev : Event Msg} (h : n.step ev = some n') {j : Nat}
    {r : Receiver Msg} (hr : n.receivers[j]? = some r) :
    ∃ r', n'.receivers[j]? = some r' ∧ r.Later r' := by
  cases ev with
  | deliver m =>
    obtain ⟨-, rfl⟩ := step_deliver h
    exact ⟨_, by simp [dispatch, hr], give_later m r⟩
  | park =>
    obtain ⟨m, -, rfl⟩ := step_park h
    exact ⟨r, hr, (Receiver.Follows.refl r).later⟩
  | accept f =>
    simp only [step, Option.some.injEq] at h
    subst h
    exact ⟨r, by rw [List.getElem?_append_left (List.getElem?_eq_some_iff.1 hr).1]; exact hr,
      (Receiver.Follows.refl r).later⟩
  | send i | read i | cancel i | unregister i =>
    obtain ⟨r0, r', hr0, hf, rfl⟩ := step_local i (by simp) h
    obtain ⟨x, hx, hrx⟩ := set_follows_new hr0 hf hr
    exact ⟨x, hx, hrx.later⟩

theorem run_later {n n' : Network Msg} (hrun : Relation.ReflTransGen Step n n') {j : Nat}
    {r : Receiver Msg} (hr : n.receivers[j]? = some r) :
    ∃ r', n'.receivers[j]? = some r' ∧ r.Later r' := by
  induction hrun with
  | refl => exact ⟨r, hr, (Receiver.Follows.refl r).later⟩
  | tail _ hs ih =>
    obtain ⟨r1, hr1, h1⟩ := ih
    obtain ⟨r2, hr2, h2⟩ := step_later hs.choose_spec hr1
    exact ⟨r2, hr2, h1.trans h2⟩

/-- A receiver registered when `run` dispatches a message its acceptor takes is handed that
message, and holds it in every network that follows while its context is live. -/
theorem present_receiver_keeps {n n1 n2 : Network Msg} {m : Msg} {j : Nat} {r : Receiver Msg}
    (hr : n.receivers[j]? = some r) (hreg : r.registered = true) (hacc : r.acceptor m = true)
    (hdeliver : n.step (.deliver m) = some n1) (hrun : Relation.ReflTransGen Step n1 n2) :
    ∃ r2, n2.receivers[j]? = some r2 ∧ m ∈ r2.given ∧ (r2.done = false → m ∈ r2.held) := by
  have ht : r.takes m = true := by simp [Receiver.takes, hreg, hacc]
  obtain ⟨-, rfl⟩ := step_deliver hdeliver
  obtain ⟨r2, hr2, hl⟩ := run_later hrun (j := j) (r := give m r) (by simp [dispatch, hr])
  exact ⟨r2, hr2, hl.given (by simp [given_give, ht]), fun hd =>
    (hl.live hd).2 ((held_give m r).mem_iff.2 (by simp [ht]))⟩

theorem present_receiver_keeps_query :
    let f : String → Bool := (· == "query")
    let r : Receiver String := ⟨f, [], [], [], false, true, []⟩
    let n : Network String := ⟨[r], [], none, []⟩
    let n1 : Network String := ⟨[⟨f, ["query"], [], [], false, true, ["query"]⟩], [], none, ["query"]⟩
    let n2 : Network String := ⟨[⟨f, [], [], ["query"], false, true, ["query"]⟩], [], none, ["query"]⟩
    n.receivers[0]? = some r ∧ r.registered = true ∧ f "query" = true ∧
      n.step (.deliver "query") = some n1 ∧ Relation.ReflTransGen Step n1 n2 ∧
      ∃ r2, n2.receivers[0]? = some r2 ∧ "query" ∈ r2.given ∧ (r2.done = false → "query" ∈ r2.held) := by
  intro f r n n1 n2
  have hr : n.receivers[0]? = some r := rfl
  have hd : n.step (.deliver "query") = some n1 := rfl
  have hrun : Relation.ReflTransGen Step n1 n2 := .single ⟨.read 0, rfl⟩
  exact ⟨hr, rfl, rfl, hd, hrun, present_receiver_keeps hr rfl rfl hd hrun⟩

/-! ### An acceptor that registers while `run` parks a message -/

/-- A step other than `Accept`. -/
def StepNoAccept (n n' : Network Msg) : Prop := ∃ ev, (∀ f, ev ≠ .accept f) ∧ n.step ev = some n'

/-- Only `Accept` takes messages out of `pending`. -/
theorem pending_subset_of_step {n n' : Network Msg} (h : StepNoAccept n n') :
    n.pending ⊆ n'.pending := by
  obtain ⟨ev, hev, h⟩ := h
  cases ev with
  | deliver m =>
    obtain ⟨-, rfl⟩ := step_deliver h
    exact List.Subset.refl _
  | park =>
    obtain ⟨m, -, rfl⟩ := step_park h
    exact List.subset_append_left _ _
  | accept f => exact absurd rfl (hev f)
  | send i | read i | cancel i | unregister i =>
    obtain ⟨r, r', -, -, rfl⟩ := step_local i (by simp) h
    exact List.Subset.refl _

/-- An `Accept` that registers while `run` holds a message it found no acceptor for, not yet
parked, does not get it, though its acceptor takes it: once `run` parks it, the message is pending
while a receiver that accepts it exists, and it stays pending until another `Accept`. -/
theorem late_acceptor_misses_parked {n n1 n2 : Network Msg} {m : Msg} {f : Msg → Bool}
    (hparking : n.parking = some m) (hf : f m = true) (hpend : m ∉ n.pending)
    (haccept : n.step (.accept f) = some n1) (hpark : n1.step .park = some n2) :
    (∃ r, n2.receivers[n.receivers.length]? = some r ∧ r.acceptor m = true ∧ m ∉ r.held) ∧
      ∀ n3, Relation.ReflTransGen StepNoAccept n2 n3 → m ∈ n3.pending := by
  simp only [step, Option.some.injEq] at haccept
  subst haccept
  simp only [step, hparking, Option.map_some', Option.some.injEq] at hpark
  subst hpark
  refine ⟨⟨⟨f, [], n.pending.filter f, [], false, true, n.pending.filter f⟩, by simp, hf,
    by simp [Receiver.held, hpend]⟩, fun n3 hrun => ?_⟩
  induction hrun with
  | refl => simp
  | tail _ hs ih => exact pending_subset_of_step hs ih

/-- `run` found no acceptor for a query, and the query acceptor registers before it parks it. -/
theorem late_acceptor_misses_parked_startup :
    let f : String → Bool := (· == "query")
    let n : Network String := ⟨[], [], some "query", ["query"]⟩
    let n1 : Network String := ⟨[⟨f, [], [], [], false, true, []⟩], [], some "query", ["query"]⟩
    let n2 : Network String := ⟨[⟨f, [], [], [], false, true, []⟩], ["query"], none, ["query"]⟩
    n.step (.accept f) = some n1 ∧ n1.step .park = some n2 ∧
      (∃ r, n2.receivers[n.receivers.length]? = some r ∧ r.acceptor "query" = true ∧
        "query" ∉ r.held) ∧
      ∀ n3, Relation.ReflTransGen StepNoAccept n2 n3 → "query" ∈ n3.pending := by
  intro f n n1 n2
  have h1 : n.step (.accept f) = some n1 := rfl
  have h2 : n1.step .park = some n2 := rfl
  exact ⟨h1, h2, late_acceptor_misses_parked (m := "query") rfl rfl (by simp [n]) h1 h2⟩

end Network

end PnyxDB.Network.Gossipsub
