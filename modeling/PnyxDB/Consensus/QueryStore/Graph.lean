import PnyxDB.Consensus.QueryStore.Basic
import Mathlib.Data.Finset.Card

/-!
The condition graph of a store and the uncached applicability predicate.

A query `d` depends on `c` when an endorsement stored on `d` lists `c` among its conditions. The
predicate `app` of the specification unfolds along this graph: `appStep f` computes `app u` from the
values `f c` of the conditions, and an applicability function is a fixed point of `appStep`. On an
acyclic graph a rank that decreases along the dependencies exists (`exists_rank`), and with it a
fixed point (`exists_isApp`).
-/

namespace PnyxDB.Consensus

namespace QueryStore

/-- `d` depends on `c`: an endorsement stored on `d` lists `c` among its conditions. -/
def DependsOn (s : QueryStore) (d c : String) : Prop :=
  ∃ qi, s.queries d = some qi ∧ ∃ e ∈ qi.endorsements, c ∈ e.endorsement.conditions

/-- The condition graph has no cycle. -/
def Acyclic (s : QueryStore) : Prop := ∀ u, ¬Relation.TransGen s.DependsOn u u

/-- `rank` decreases along every dependency: a topological order of the condition graph. -/
def Ranked (s : QueryStore) (rank : String → Nat) : Prop :=
  ∀ d c, s.DependsOn d c → rank c < rank d

/-- Every key of the query map is in `keys`. -/
def KeysIn (s : QueryStore) (keys : List String) : Prop :=
  ∀ u, (s.queries u).isSome → u ∈ keys

theorem dependsOn_of_mem {s : QueryStore} {d c : String} {qi : QueryInfo} {e : EndorsementInfo}
    (hd : s.queries d = some qi) (he : e ∈ qi.endorsements) (hc : c ∈ e.endorsement.conditions) :
    s.DependsOn d c :=
  ⟨qi, hd, e, he, hc⟩

/-- A graph with a topological rank has no cycle. -/
theorem Ranked.acyclic {s : QueryStore} {rank : String → Nat} (h : s.Ranked rank) : s.Acyclic := by
  have hlt : ∀ u v, Relation.TransGen s.DependsOn u v → rank v < rank u := fun u v huv => by
    induction huv with
    | single hd => exact h _ _ hd
    | tail _ hd ih => exact (h _ _ hd).trans ih
  exact fun u hu => lt_irrefl _ (hlt u u hu)

/-- A finite acyclic graph has a topological rank: the number of queries a query reaches. -/
theorem exists_rank {s : QueryStore} {keys : List String} (hk : s.KeysIn keys)
    (hac : s.Acyclic) : ∃ rank, s.Ranked rank := by
  classical
  let nodes : Finset String := (keys ++ keys.flatMap fun d =>
    (s.endorsementsOf d).flatMap fun e => e.endorsement.conditions).toFinset
  refine ⟨fun u => (nodes.filter (Relation.TransGen s.DependsOn u)).card, ?_⟩
  intro d c hdc
  apply Finset.card_lt_card
  refine Finset.ssubset_iff_of_subset (fun v hv => ?_) |>.mpr ⟨c, ?_, ?_⟩
  · simp only [Finset.mem_filter] at hv ⊢
    exact ⟨hv.1, Relation.TransGen.head hdc hv.2⟩
  · obtain ⟨qi, hd, e, he, hc⟩ := hdc
    have hkd : d ∈ keys := hk d (by simp [hd])
    have hmem : c ∈ nodes := by
      simp only [nodes, List.mem_toFinset, List.mem_append, List.mem_flatMap]
      exact Or.inr ⟨d, hkd, e, by simpa [endorsementsOf, hd] using he, hc⟩
    exact Finset.mem_filter.mpr ⟨hmem, .single ⟨qi, hd, e, he, hc⟩⟩
  · simp only [Finset.mem_filter, not_and]
    exact fun _ => hac c

/-! ### The uncached predicate -/

/-- An endorsement is valid for `f` when none of its conditions is applicable by `f`. -/
def validFor (f : String → Bool) (e : EndorsementInfo) : Bool :=
  e.endorsement.conditions.all fun c => !f c

/-- One unfolding of the specification's `app`: false for an unknown or dropped query, true for a
committed one, and for a pending one whether at least `threshold` of its endorsements are valid. -/
def appStep (s : QueryStore) (f : String → Bool) (u : String) : Bool :=
  match s.queries u with
  | none => false
  | some qi =>
    match qi.state with
    | .dropped => false
    | .committed => true
    | .pending => decide (s.threshold ≤ (qi.endorsements.countP (validFor f) : Int))

/-- `f` is an applicability function of `s`: it satisfies the recursive definition of `app`. -/
def IsApp (s : QueryStore) (f : String → Bool) : Prop := ∀ u, f u = s.appStep f u

/-- `appStep` reads `f` only on the conditions of `u`. -/
theorem appStep_congr {s : QueryStore} {f g : String → Bool} {u : String}
    (h : ∀ c, s.DependsOn u c → f c = g c) : s.appStep f u = s.appStep g u := by
  unfold appStep
  cases hu : s.queries u with
  | none => rfl
  | some qi =>
    have hv : qi.endorsements.countP (validFor f) = qi.endorsements.countP (validFor g) :=
      List.countP_congr fun e he => by
        simp only [validFor, List.all_eq_true]
        exact forall₂_congr fun c hc => by rw [h c (dependsOn_of_mem hu he hc)]
    dsimp only
    rw [hv]

/-- `app` unfolded `n` times, starting from the constant `false`. -/
def uncached (s : QueryStore) : Nat → String → Bool
  | 0 => fun _ => false
  | n + 1 => s.appStep (s.uncached n)

theorem uncached_stable {s : QueryStore} {rank : String → Nat} (hr : s.Ranked rank) :
    ∀ k u, rank u = k → ∀ n, rank u < n → s.uncached n u = s.uncached (rank u + 1) u := by
  intro k
  induction k using Nat.strong_induction_on with
  | _ k ih =>
    intro u hu n hn
    obtain ⟨m, rfl⟩ : ∃ m, n = m + 1 := ⟨n - 1, by omega⟩
    simp only [uncached]
    refine appStep_congr fun c hc => ?_
    have hlt := hr u c hc
    rw [ih _ (hu ▸ hlt) c rfl m (by omega), ih _ (hu ▸ hlt) c rfl (rank u) hlt]

/-- On a ranked graph the recursive definition of `app` has a solution. -/
theorem exists_isApp {s : QueryStore} {rank : String → Nat} (hr : s.Ranked rank) :
    ∃ f, s.IsApp f := by
  refine ⟨fun u => s.uncached (rank u + 1) u, fun u => ?_⟩
  show s.appStep (s.uncached (rank u)) u = _
  refine appStep_congr fun c hc => ?_
  exact uncached_stable hr _ c rfl _ (hr u c hc)

end QueryStore

end PnyxDB.Consensus
