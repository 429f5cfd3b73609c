import PnyxDB.Consensus.QueryStore.Graph

/-!
The invariant that makes the memoised applicability sound.

A cache entry is only as good as the reason it was computed for. A fresh endorsement was found valid
because each of its conditions was then not applicable, or invalid because the loop over its
conditions met an applicable one after conditions that were not; the conditions it looked at are
*settled* (the store can vouch for their value without evaluating them) and *indexed* (the
endorsement's query is recorded among their dependents, so that a change of their value cascades to
the endorsement). `Coherent` states this for every fresh endorsement and relates every fresh pending
query to its endorsements; `settled_eq_app` then shows that a settled value is the value of the
uncached predicate.
-/

namespace PnyxDB.Consensus

namespace QueryStore

/-- The value the store vouches for without evaluating: unknown and dropped queries are not
applicable, committed ones are, and a fresh pending one has its memoised value. -/
def settled (s : QueryStore) (u : String) : Option Bool :=
  match s.queries u with
  | none => some false
  | some qi =>
    match qi.state with
    | .dropped => some false
    | .committed => some true
    | .pending => if qi.cached.fresh then some qi.cached.result else none

/-- The dependency index records that `d` depends on `c`: in the entry of `c`, or in
`pendingDependencies` while `c` is unknown. -/
def Indexed (s : QueryStore) (d c : String) : Prop :=
  match s.queries c with
  | some qc => d ∈ qc.dependents
  | none => d ∈ s.pendingDependencies c

/-- Every dependency of the condition graph on another query is in the index. A dependency of a
query on itself may be missing: `AddEndorsement` writes back a copy of the entry read before the
dependent was added. -/
def IndexComplete (s : QueryStore) : Prop := ∀ d c, s.DependsOn d c → d ≠ c → s.Indexed d c

/-- The store vouches that `c` has value `v`, and records `d` among its dependents. -/
def Vouched (s : QueryStore) (d c : String) (v : Bool) : Prop := s.Indexed d c ∧ s.settled c = some v

/-- The reason recorded for a fresh endorsement on `d`: if valid, every condition is settled not
applicable; if invalid, the conditions up to an applicable one are settled, that one applicable and
those before it not. -/
def Justified (s : QueryStore) (d : String) (e : EndorsementInfo) : Prop :=
  if e.cached.result then ∀ c ∈ e.endorsement.conditions, s.Vouched d c false
  else ∃ pre c post, e.endorsement.conditions = pre ++ c :: post ∧
    (∀ p ∈ pre, s.Vouched d p false) ∧ s.Vouched d c true

/-- A justification carries over to a store that vouches for the same values of the conditions. -/
theorem Justified.of_vouched {s s' : QueryStore} {d : String} {e : EndorsementInfo}
    (h : ∀ c ∈ e.endorsement.conditions, ∀ v, s.Vouched d c v → s'.Vouched d c v)
    (hj : s.Justified d e) : s'.Justified d e := by
  unfold Justified at hj ⊢
  by_cases hr : e.cached.result = true
  · rw [if_pos hr] at hj ⊢
    exact fun c hc => h c hc false (hj c hc)
  · rw [if_neg hr] at hj ⊢
    obtain ⟨pre, c, post, hcs, hpre, hc⟩ := hj
    exact ⟨pre, c, post, hcs, fun p hp => h p (by simp [hcs, hp]) false (hpre p hp),
      h c (by simp [hcs]) true hc⟩

/-- The memoised value of a fresh pending query: the short cut for too few endorsements, or the
count of its (then all fresh) endorsements. -/
def NodeCached (t : Int) (qi : QueryInfo) : Prop :=
  ((qi.endorsements.length : Int) < t ∧ qi.cached.result = false) ∨
  ((∀ e ∈ qi.endorsements, e.cached.fresh = true) ∧
    qi.cached.result = decide (t ≤ (qi.endorsements.countP (·.cached.result) : Int)))

structure Coherent (s : QueryStore) : Prop where
  node : ∀ d qi, s.queries d = some qi → qi.state = .pending → qi.cached.fresh = true →
    NodeCached s.threshold qi
  endorsement : ∀ d qi, s.queries d = some qi → ∀ e ∈ qi.endorsements, e.cached.fresh = true →
    s.Justified d e

section
variable {s : QueryStore} {rank : String → Nat} {f : String → Bool}

/-- A justified endorsement is valid for `f` exactly when its cache says so, as long as `f` agrees
with the settled values of its conditions. -/
theorem validFor_eq_result {d : String} {e : EndorsementInfo} (hj : s.Justified d e)
    (hf : ∀ c ∈ e.endorsement.conditions, ∀ b, s.settled c = some b → f c = b) :
    validFor f e = e.cached.result := by
  unfold Justified at hj
  cases hres : e.cached.result <;> simp only [hres] at hj
  · obtain ⟨pre, c, post, hcs, -, -, hs⟩ := hj
    have hc : c ∈ e.endorsement.conditions := by simp [hcs]
    refine Bool.eq_false_iff.mpr fun hv => ?_
    simpa [hf c hc _ hs] using List.all_eq_true.mp hv c hc
  · exact List.all_eq_true.mpr fun c hc => by simp [hf c hc _ (hj c hc).2]

/-- A settled value is the value of every applicability function. -/
theorem settled_eq_app (hc : s.Coherent) (hr : s.Ranked rank) (hf : s.IsApp f) :
    ∀ c b, s.settled c = some b → f c = b := by
  suffices ∀ k c, rank c = k → ∀ b, s.settled c = some b → f c = b from fun c => this _ c rfl
  intro k
  induction k using Nat.strong_induction_on with
  | _ k ih =>
    intro c hk b hb
    rw [hf c]
    unfold settled at hb
    unfold appStep
    cases hq : s.queries c with
    | none => simpa [hq] using hb
    | some qi =>
      simp only [hq] at hb ⊢
      cases hst : qi.state <;> simp only [hst, Option.ite_none_right_eq_some,
        Option.some.injEq] at hb ⊢
      · obtain ⟨hfresh, rfl⟩ := hb
        rcases hc.node c qi hq hst hfresh with ⟨hlen, hres⟩ | ⟨hall, hres⟩
        · have := List.countP_le_length (validFor f) (l := qi.endorsements)
          simp only [hres, decide_eq_false_iff_not, not_le]
          omega
        · have hcount : qi.endorsements.countP (validFor f) =
              qi.endorsements.countP (·.cached.result) := List.countP_congr fun e he => by
            rw [validFor_eq_result (hc.endorsement c qi hq e he (hall e he))
              fun c' hc' b' => ih _ (hk ▸ hr c c' (dependsOn_of_mem hq he hc')) c' rfl b']
          rw [hres, hcount]
      · exact hb
      · exact hb

end

end QueryStore

end PnyxDB.Consensus
