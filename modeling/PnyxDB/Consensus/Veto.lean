import PnyxDB.Consensus.QueryStore.Basic
import Mathlib.Data.List.Perm.Basic
import Mathlib.Data.List.Nodup

/-!
The veto procedure of `consensus/bbc/veto.go`, run once per checkpoint identifier with threshold
`n`, the number of participants.

`Execute` broadcasts the node's own choice, then reads the choices the network delivers for the
identifier. A verified `false` is a veto: the node relays it (if it has not sent a `false` itself)
and decides `false`. A verified `true` counts its emitter; at `threshold` distinct emitters the node
decides `true`. If the stream closes first, the node also decides `true`, whatever its own choice
was: the veto of `Execute`'s own caller is lost (`execute_closed_decides_true`). And since a
participant may sign both values, two honest nodes can decide differently
(`execute_disagreement`); without such equivocation, the nodes whose loop ended on a message agree
(`execute_agreement`).
-/

namespace PnyxDB.Consensus.BBC

/-- The `Choice` message. -/
structure Choice where
  identifier : String
  emitter : String
  choice : Bool
  proofs : List Proof
  signature : Bytes
  deriving DecidableEq, Repr

/-- How a call of `Execute` ends. -/
inductive Ending
  | failed
  | veto (c : Choice)
  | quorum
  | closed
  deriving DecidableEq, Repr

/-- The decision `Execute` returns. -/
def Ending.decision : Ending → Bool
  | .failed => false
  | .veto _ => false
  | .quorum => true
  | .closed => true

/-- The proofs `Execute` returns with its decision. -/
def Ending.proofs : Ending → List Proof
  | .veto c => c.proofs
  | _ => []

/-- The loop ended on a message: a veto or the quorum. -/
def Ending.onMessage : Ending → Bool
  | .veto _ => true
  | .quorum => true
  | _ => false

/-- The receive loop of `Execute`, over the accepted choices, with `verify` for the hash and
signature check and `receivedT` the emitters of the `true` choices so far. The second component
says whether the node relays the veto, which it does if it has not sent a `false` yet. -/
def receive (verify : Choice → Bool) (threshold : Nat) (sentF : Bool) :
    List String → List Choice → Ending × Bool
  | _, [] => (.closed, false)
  | receivedT, c :: cs =>
    if !verify c then receive verify threshold sentF receivedT cs
    else if !c.choice then (.veto c, !sentF)
    else if (addToSet receivedT c.emitter).length = threshold then (.quorum, false)
    else receive verify threshold sentF (addToSet receivedT c.emitter) cs

/-- `vetoEngine.Execute(id, choice, proofs)` at a node whose broadcast of its own choice succeeds
or not, reading `delivered`; the acceptor keeps the choices for `id`. -/
def execute (verify : Choice → Bool) (threshold : Nat) (id : String) (choice broadcastOk : Bool)
    (delivered : List Choice) : Ending × Bool :=
  if !broadcastOk then (.failed, false)
  else receive verify threshold (!choice) [] (delivered.filter (·.identifier = id))

section
variable {verify : Choice → Bool} {threshold : Nat} {sentF : Bool}

/-! ### A closed stream decides `true` -/

/-- A node that vetoes and whose stream closes before any choice arrives decides `true`. -/
theorem execute_closed_decides_true (verify : Choice → Bool) (threshold : Nat) (id : String) :
    (execute verify threshold id false true []).1.decision = true := rfl

/-! ### Agreement -/

/-- A veto is a verified `false` of the stream. -/
theorem receive_veto : ∀ (receivedT : List String) (cs : List Choice) (c : Choice),
    (receive verify threshold sentF receivedT cs).1 = .veto c →
      c ∈ cs ∧ verify c = true ∧ c.choice = false
  | _, [], _, h => by simp [receive] at h
  | receivedT, c' :: cs, c, h => by
    unfold receive at h
    split_ifs at h with h1 h2 h3
    · exact (receive_veto _ cs c h).imp (List.mem_cons_of_mem _) id
    · obtain rfl : c' = c := by simpa using h
      exact ⟨List.mem_cons_self _ _, by simpa using h1, by simpa using h2⟩
    · exact (receive_veto _ cs c h).imp (List.mem_cons_of_mem _) id

/-- At the quorum, `threshold` distinct emitters each sent a verified `true`, or were counted
before. -/
theorem receive_quorum : ∀ (receivedT : List String) (cs : List Choice), receivedT.Nodup →
    (receive verify threshold sentF receivedT cs).1 = .quorum →
      ∃ T : List String, T.Nodup ∧ T.length = threshold ∧
        ∀ e ∈ T, e ∈ receivedT ∨ ∃ c ∈ cs, verify c = true ∧ c.choice = true ∧ c.emitter = e
  | _, [], _, h => by simp [receive] at h
  | receivedT, c :: cs, hnd, h => by
    have hstep : ∀ e ∈ addToSet receivedT c.emitter, e ∈ receivedT ∨ e = c.emitter := by simp
    unfold receive at h
    split_ifs at h with h1 h2 h3
    · obtain ⟨T, hT, hlen, hmem⟩ := receive_quorum receivedT cs hnd h
      exact ⟨T, hT, hlen, fun e he => (hmem e he).imp_right fun ⟨c', hc', hv⟩ =>
        ⟨c', List.mem_cons_of_mem _ hc', hv⟩⟩
    · exact ⟨_, nodup_addToSet hnd _, h3, fun e he => (hstep e he).imp_right fun he' =>
        ⟨c, List.mem_cons_self _ _, by simpa using h1, by simpa using h2, he'.symm⟩⟩
    · obtain ⟨T, hT, hlen, hmem⟩ := receive_quorum _ cs (nodup_addToSet hnd _) h
      refine ⟨T, hT, hlen, fun e he => ?_⟩
      rcases hmem e he with he' | ⟨c', hc', hv⟩
      · exact (hstep e he').imp_right fun he'' =>
          ⟨c, List.mem_cons_self _ _, by simpa using h1, by simpa using h2, he''.symm⟩
      · exact .inr ⟨c', List.mem_cons_of_mem _ hc', hv⟩

end

/-- What `Execute` ends with, when it ends in its receive loop. -/
theorem execute_eq_receive {verify : Choice → Bool} {threshold : Nat} {id : String}
    {choice ok : Bool} {d : List Choice} {e : Ending}
    (h : (execute verify threshold id choice ok d).1 = e) (he : e ≠ .failed) :
    (receive verify threshold (!choice) [] (d.filter (·.identifier = id))).1 = e := by
  unfold execute at h
  split_ifs at h
  · exact absurd h.symm he
  · exact h

/-- A quorum of `participants.length` counts a verified `true` of every participant, when only
participants' signatures verify. -/
theorem quorum_hears_every_participant {verify : Choice → Bool} {participants : List String}
    {sentF : Bool} {cs : List Choice}
    (hverify : ∀ c, verify c = true → c.emitter ∈ participants)
    (hq : (receive verify participants.length sentF [] cs).1 = .quorum)
    {P : String} (hP : P ∈ participants) :
    ∃ c ∈ cs, verify c = true ∧ c.choice = true ∧ c.emitter = P := by
  obtain ⟨T, hT, hlen, hmem⟩ := receive_quorum [] cs List.nodup_nil hq
  -- the `true` emitters counted are all the participants
  have hsub : T ⊆ participants := fun e he => by
    obtain ⟨c, -, hc, -, rfl⟩ := (hmem e he).resolve_left (List.not_mem_nil e)
    exact hverify c hc
  have hperm := (List.subperm_of_subset hT hsub).perm_of_length_le (by rw [hlen])
  exact (hmem P (hperm.mem_iff.mpr hP)).resolve_left (List.not_mem_nil _)

/-- Under the hypotheses of `execute_agreement`, no node reaches the quorum for `id` while another
receives a veto for it. -/
theorem not_quorum_and_veto {verify : Choice → Bool} {participants : List String} {id : String}
    (hverify : ∀ c, verify c = true → c.emitter ∈ participants)
    (hsingle : ∀ c c', verify c = true → verify c' = true → c.identifier = id →
      c'.identifier = id → c.emitter = c'.emitter → c.choice = c'.choice)
    {choiceA choiceB okA okB : Bool} {dA dB : List Choice} {v : Choice}
    (hA : (execute verify participants.length id choiceA okA dA).1 = .quorum)
    (hB : (execute verify participants.length id choiceB okB dB).1 = .veto v) : False := by
  obtain ⟨hv, hvv, hvf⟩ := receive_veto [] _ v (execute_eq_receive hB (by simp))
  obtain ⟨c, hc, hcv, hct, hce⟩ := quorum_hears_every_participant hverify
    (execute_eq_receive hA (by simp)) (hverify v hvv)
  have hvid : v.identifier = id := by simpa using (List.mem_filter.mp hv).2
  have hcid : c.identifier = id := by simpa using (List.mem_filter.mp hc).2
  have := hsingle v c hvv hcv hvid hcid hce.symm
  rw [hvf, hct] at this
  exact Bool.false_ne_true this

/-- Two nodes whose `Execute(id, …)` ends on a message decide alike, when the threshold is the
number of participants, only participants' signatures verify, and no participant signs both
values for `id`. -/
theorem execute_agreement {verify : Choice → Bool} {participants : List String} {id : String}
    (hverify : ∀ c, verify c = true → c.emitter ∈ participants)
    (hsingle : ∀ c c', verify c = true → verify c' = true → c.identifier = id →
      c'.identifier = id → c.emitter = c'.emitter → c.choice = c'.choice)
    (choiceA choiceB okA okB : Bool) (dA dB : List Choice)
    (hA : (execute verify participants.length id choiceA okA dA).1.onMessage = true)
    (hB : (execute verify participants.length id choiceB okB dB).1.onMessage = true) :
    (execute verify participants.length id choiceA okA dA).1.decision =
      (execute verify participants.length id choiceB okB dB).1.decision := by
  cases heA : (execute verify participants.length id choiceA okA dA).1 <;>
    cases heB : (execute verify participants.length id choiceB okB dB).1 <;>
    simp only [heA, heB, Ending.onMessage, Ending.decision, Bool.false_eq_true] at hA hB ⊢
  · exact (not_quorum_and_veto hverify (fun c c' h1 h2 h3 h4 h5 =>
      (hsingle c' c h2 h1 h4 h3 h5.symm).symm) heB heA).elim
  · exact (not_quorum_and_veto hverify hsingle heA heB).elim

/-- The choice of `emitter` for the checkpoint `"cp"`. -/
def vote (emitter : String) (choice : Bool) : Choice := ⟨"cp", emitter, choice, [], []⟩

/-- Two honest participants that both chose `true` and both hear from each other agree. -/
theorem execute_agreement_two :
    (∀ c, decide (c ∈ [vote "A" true, vote "B" true]) = true → c.emitter ∈ ["A", "B"]) ∧
    (∀ c c', decide (c ∈ [vote "A" true, vote "B" true]) = true →
      decide (c' ∈ [vote "A" true, vote "B" true]) = true → c.identifier = "cp" →
        c'.identifier = "cp" → c.emitter = c'.emitter → c.choice = c'.choice) ∧
    (execute (decide <| · ∈ [vote "A" true, vote "B" true]) 2 "cp" true true
      [vote "A" true, vote "B" true]).1.onMessage = true ∧
    (execute (decide <| · ∈ [vote "A" true, vote "B" true]) 2 "cp" true true
      [vote "B" true, vote "A" true]).1.onMessage = true ∧
    (execute (decide <| · ∈ [vote "A" true, vote "B" true]) 2 "cp" true true
      [vote "A" true, vote "B" true]).1.decision =
    (execute (decide <| · ∈ [vote "A" true, vote "B" true]) 2 "cp" true true
      [vote "B" true, vote "A" true]).1.decision := by
  have hv : ∀ c, decide (c ∈ [vote "A" true, vote "B" true]) = true →
      c = vote "A" true ∨ c = vote "B" true := by simp
  have hverify : ∀ c, decide (c ∈ [vote "A" true, vote "B" true]) = true →
      c.emitter ∈ ["A", "B"] := fun c hc => by rcases hv c hc with rfl | rfl <;> decide
  have hsingle : ∀ c c', decide (c ∈ [vote "A" true, vote "B" true]) = true →
      decide (c' ∈ [vote "A" true, vote "B" true]) = true → c.identifier = "cp" →
        c'.identifier = "cp" → c.emitter = c'.emitter → c.choice = c'.choice :=
    fun c c' hc hc' _ _ _ => by rcases hv c hc with rfl | rfl <;> rcases hv c' hc' with rfl | rfl <;> rfl
  have hA : (execute (decide <| · ∈ [vote "A" true, vote "B" true]) 2 "cp" true true
      [vote "A" true, vote "B" true]).1.onMessage = true := by decide
  have hB : (execute (decide <| · ∈ [vote "A" true, vote "B" true]) 2 "cp" true true
      [vote "B" true, vote "A" true]).1.onMessage = true := by decide
  exact ⟨hverify, hsingle, hA, hB, execute_agreement hverify hsingle true true true true _ _ hA hB⟩

/-- Four participants, threshold four; `Z` signs both values for `"cp"`. -/
def equivocation : List Choice :=
  [vote "A" true, vote "B" true, vote "C" true, vote "Z" true, vote "Z" false]

/-- With `Z`'s two signed choices, the honest `A`, hearing the four `true`s first, decides `true`,
while the honest `B`, hearing `Z`'s `false` first, decides `false`. -/
theorem execute_disagreement :
    (execute (decide <| · ∈ equivocation) 4 "cp" true true
      [vote "A" true, vote "B" true, vote "C" true, vote "Z" true]).1.decision = true ∧
    (execute (decide <| · ∈ equivocation) 4 "cp" true true [vote "Z" false]).1.decision = false := by
  decide

end PnyxDB.Consensus.BBC
