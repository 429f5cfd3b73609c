import PnyxDB.Consensus.Structures

/-!
The check of `RequestRecovery` (package `gossipsub`): once a quorum of peers has answered for a
key, `checkRecoveryResponses` accepts the first answer if all of them agree.

The loop of `checkRecoveryResponses` tests `responses[0].GetKey()` at every index, so the key of a
later answer is never read: a peer that answers for another key with the same version and data
counts towards the unanimity (`checkRecoveryResponses_eq_ok_iff`).

`RequestRecovery` collects the answers in the order they arrive (`collect`); what it accepts is
`checkRecoveryResponses` of the first `quorum` of them (`requestRecovery_eq_ok`), and every one of
those carries the version and the data returned (`checkRecoveryResponses_agree`). The choice of the
peers asked and the streams (`recoveryStream`) are left out: a failed stream is a nil arrival.
-/

namespace PnyxDB.Network.Recovery

open PnyxDB.Consensus

/-- `consensus.RecoveryResponse`. Its version is a message field, which may be nil. -/
structure RecoveryResponse where
  key : String
  version : Option Version
  data : Bytes
  deriving DecidableEq, Repr

/-- One index `i > 0` of the loop of `checkRecoveryResponses`, on the later answer `r`; the key test
reads the first answer `r0`. -/
def checkLater (key : String) (r0 r : RecoveryResponse) : Option String :=
  if r0.key ≠ key then some "key mismatch"
  else if (Version.matches r0.version r.version).isSome then some "version mismatch"
  else if r0.data ≠ r.data then some "data mismatch"
  else none

/-- `checkRecoveryResponses`: index `0` tests the key only, every later index runs `checkLater`,
and the first error ends the loop. -/
def checkRecoveryResponses (key : String) : List RecoveryResponse → Except String RecoveryResponse
  | [] => .error "undefined behavior"
  | r0 :: rest =>
    if r0.key ≠ key then .error "key mismatch"
    else match rest.findSome? (checkLater key r0) with
      | some e => .error e
      | none => .ok r0

theorem checkLater_eq_none {key : String} {r0 r : RecoveryResponse} (hk : r0.key = key) :
    checkLater key r0 r = none ↔
      r0.version.isSome ∧ r0.version = r.version ∧ r0.data = r.data := by
  rw [← and_assoc, ← Version.matches_eq_none_iff]
  cases hm : Version.matches r0.version r.version <;> by_cases hd : r0.data = r.data <;>
    simp [checkLater, hk, hm, hd]

/-- `checkRecoveryResponses` accepts exactly when the first answer names the key and every later
answer carries the first one's version (set) and data; it then returns the first answer. The keys
of the later answers play no part. -/
theorem checkRecoveryResponses_eq_ok_iff {key : String} {r0 r : RecoveryResponse}
    {rest : List RecoveryResponse} :
    checkRecoveryResponses key (r0 :: rest) = .ok r ↔ r = r0 ∧ r0.key = key ∧
      ∀ r' ∈ rest, r0.version.isSome ∧ r0.version = r'.version ∧ r0.data = r'.data := by
  by_cases hk : r0.key = key
  · simp only [checkRecoveryResponses, hk, ne_eq, not_true_eq_false, if_false, true_and]
    cases hf : rest.findSome? (checkLater key r0) with
    | some e =>
      obtain ⟨r', hr', he⟩ := List.exists_of_findSome?_eq_some hf
      refine iff_of_false (by simp) fun ⟨_, hall⟩ => ?_
      simp [(checkLater_eq_none hk).2 (hall r' hr')] at he
    | none =>
      simp only [Except.ok.injEq, @eq_comm _ r0, iff_self_and]
      exact fun _ r' hr' => (checkLater_eq_none hk).1 (List.findSome?_eq_none_iff.1 hf r' hr')
  · simp [checkRecoveryResponses, hk]

theorem recovery_accepts_foreign_key :
    checkRecoveryResponses "k" [⟨"k", some ⟨[1]⟩, [7]⟩, ⟨"j", some ⟨[1]⟩, [7]⟩] =
        .ok ⟨"k", some ⟨[1]⟩, [7]⟩ ∧
      ∃ r ∈ [(⟨"k", some ⟨[1]⟩, [7]⟩ : RecoveryResponse), ⟨"j", some ⟨[1]⟩, [7]⟩], r.key ≠ "k" :=
  ⟨checkRecoveryResponses_eq_ok_iff.2 ⟨rfl, rfl, by simp⟩, ⟨"j", some ⟨[1]⟩, [7]⟩, by simp, by decide⟩

/-! ### `RequestRecovery` -/

/-- The loop of `RequestRecovery` over the answers in the order they arrive, each `none` where the
stream of its peer failed (`recoveryStream` returned nil). The first nil ends the request; the
answer that makes `quorum` of them hands them all to `checkRecoveryResponses`; running out of
answers is the deadline of the context. -/
def collect (key : String) (quorum : Nat) (responses : List RecoveryResponse) :
    List (Option RecoveryResponse) → Except String RecoveryResponse
  | [] => .error "context deadline exceeded"
  | none :: _ => .error "invalid response from one peer"
  | some r :: arrivals =>
    if (responses ++ [r]).length = quorum then checkRecoveryResponses key (responses ++ [r])
    else collect key quorum (responses ++ [r]) arrivals

/-- `network.RequestRecovery(ctx, key)` on a network of `peers` peers in the topic, where the
streams to the `quorum` peers it picks answer in the order `arrivals`: nil and no error without a
recovery quorum, an error with fewer peers than the quorum, and the loop `collect` otherwise. -/
def requestRecovery (quorum peers : Nat) (key : String) (arrivals : List (Option RecoveryResponse)) :
    Except String (Option RecoveryResponse) :=
  if quorum = 0 then .ok none
  else if peers < quorum then
    .error ("not enough peers to recover, got " ++ toString peers ++ " but expected " ++
      toString quorum)
  else (collect key quorum [] arrivals).map some

/-- What `collect` accepts is `checkRecoveryResponses` of the answers so far and of the next
ones up to the quorum, all of which arrived. -/
theorem collect_eq_ok {key : String} {quorum : Nat} {r : RecoveryResponse} :
    ∀ {responses : List RecoveryResponse} {arrivals : List (Option RecoveryResponse)},
      collect key quorum responses arrivals = .ok r → responses.length < quorum →
        ∃ rs, arrivals.take (quorum - responses.length) = rs.map some ∧
          checkRecoveryResponses key (responses ++ rs) = .ok r
  | _, [], h, _ => by simp [collect] at h
  | _, none :: _, h, _ => by simp [collect] at h
  | responses, some r' :: arrivals, h, hlt => by
    unfold collect at h
    split_ifs at h with hq
    · refine ⟨[r'], ?_, h⟩
      simp only [List.length_append, List.length_singleton] at hq
      rw [← hq, Nat.add_sub_cancel_left]
      rfl
    · have hlt' : (responses ++ [r']).length < quorum := by
        simp only [List.length_append, List.length_singleton] at hq ⊢
        omega
      obtain ⟨rs, htake, hc⟩ := collect_eq_ok h hlt'
      refine ⟨r' :: rs, ?_, by simpa using hc⟩
      simp only [List.length_append, List.length_singleton] at htake
      rw [show quorum - responses.length = quorum - (responses.length + 1) + 1 by omega,
        List.take_succ_cons, htake]
      rfl

/-- A recovery with a recovery quorum that returns no error returned a response, checked on the
`quorum` answers that arrived first. -/
theorem requestRecovery_eq_ok {quorum peers : Nat} {key : String}
    {arrivals : List (Option RecoveryResponse)} {r : Option RecoveryResponse} (hq : quorum ≠ 0)
    (h : requestRecovery quorum peers key arrivals = .ok r) :
    ∃ r' rs, r = some r' ∧ arrivals.take quorum = rs.map some ∧
      checkRecoveryResponses key rs = .ok r' := by
  unfold requestRecovery at h
  rw [if_neg hq] at h
  split_ifs at h
  cases hc : collect key quorum [] arrivals with
  | error e => simp [hc, Except.map] at h
  | ok r' =>
    simp only [hc, Except.map, Except.ok.injEq] at h
    subst h
    exact ⟨r', by simpa using collect_eq_ok hc (Nat.pos_of_ne_zero hq)⟩

/-- Every answer of an accepted quorum carries the version and the data of the response
returned. -/
theorem checkRecoveryResponses_agree {key : String} {rs : List RecoveryResponse}
    {r : RecoveryResponse} (h : checkRecoveryResponses key rs = .ok r) :
    ∀ r' ∈ rs, r'.version = r.version ∧ r'.data = r.data := by
  cases rs with
  | nil => simp [checkRecoveryResponses] at h
  | cons r0 rest =>
    obtain ⟨rfl, -, hall⟩ := checkRecoveryResponses_eq_ok_iff.1 h
    intro r' hr'
    rcases List.mem_cons.1 hr' with rfl | hr'
    · exact ⟨rfl, rfl⟩
    · exact ⟨(hall r' hr').2.1.symm, (hall r' hr').2.2.symm⟩

end PnyxDB.Network.Recovery
