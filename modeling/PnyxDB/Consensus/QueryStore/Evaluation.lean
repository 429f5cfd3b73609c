import PnyxDB.Consensus.QueryStore.Decay

/-!
The evaluation of `isApplicable` without its cache, on every store, cyclic condition graphs included.

Go's `isApplicable` recurses into the conditions of the endorsements it has not cached, and on a cyclic
graph it may recurse forever. Its counterpart without cache is three-valued: `some b` once
determined, `none` while undetermined. It is computed in stages (`evalStage`): stage `k + 1` applies
one unfolding of `isApplicable` (`evalStep`) to the values of stage `k`, and the loop over the
conditions of an endorsement stops at the first applicable one (`condsValid`), as Go's loop does. A
query `Evaluates` to `b` when some stage determines it; stages only add values (`evalStage_le`), so
that value is unique (`Evaluates.unique`). A query that finds itself among the conditions its own
evaluation reaches is never determined (`Before.not_evaluates`).

`Sound` says that every value the store vouches for is the value of this evaluation. A coherent,
sound store stays sound when its cache decays (`Decays.sound`): what the new store vouches for, the
old one vouched for, on conditions whose values did not change.
-/

namespace PnyxDB.Consensus

namespace QueryStore

/-- The condition loop of `isApplicable` on the values `f`: valid when no condition is applicable,
stopping at the first applicable one, undetermined at the first undetermined one it reaches. -/
def condsValid (f : String → Option Bool) : List String → Option Bool
  | [] => some true
  | c :: cs => (f c).bind fun r => if r then some false else condsValid f cs

/-- The endorsement loop of `isApplicable` on the values `f`: the number of valid endorsements, once
every one is determined. -/
def countValid (f : String → Option Bool) : List EndorsementInfo → Option Nat
  | [] => some 0
  | e :: es => (condsValid f e.endorsement.conditions).bind fun r =>
    (countValid f es).map fun n => if r then n + 1 else n

/-- One unfolding of `isApplicable` without its cache, on the values `f` of the conditions. -/
def evalStep (s : QueryStore) (f : String → Option Bool) (u : String) : Option Bool :=
  match s.queries u with
  | none => some false
  | some qi =>
    match qi.state with
    | .dropped => some false
    | .committed => some true
    | .pending =>
      if (qi.endorsements.length : Int) < s.threshold then some false
      else (countValid f qi.endorsements).map fun n : Nat => decide (s.threshold ≤ (n : Int))

/-- The values determined after `k` unfoldings. -/
def evalStage (s : QueryStore) : Nat → String → Option Bool
  | 0 => fun _ => none
  | k + 1 => s.evalStep (s.evalStage k)

/-- `u` evaluates to `b` from scratch: some stage determines it. -/
def Evaluates (s : QueryStore) (u : String) (b : Bool) : Prop := ∃ k, s.evalStage k u = some b

/-- Every value the store vouches for is the value of the evaluation from scratch. -/
def Sound (s : QueryStore) : Prop := ∀ c b, s.settled c = some b → s.Evaluates c b

/-! ### The condition loop -/

section
variable {f g : String → Option Bool}

@[simp] theorem condsValid_nil (f : String → Option Bool) : condsValid f [] = some true := rfl

theorem condsValid_cons_of_false {c : String} {cs : List String} (h : f c = some false) :
    condsValid f (c :: cs) = condsValid f cs := by
  simp [condsValid, h]

theorem condsValid_mono :
    ∀ {cs : List String}, (∀ c ∈ cs, ∀ b, f c = some b → g c = some b) →
      ∀ {r}, condsValid f cs = some r → condsValid g cs = some r
  | [], _, _, hr => hr
  | c :: cs, h, r, hr => by
    cases hc : f c with
    | none => simp [condsValid, hc] at hr
    | some b =>
      simp only [condsValid, hc, h c (List.mem_cons_self _ _) b hc, Option.some_bind] at hr ⊢
      cases b
      · exact condsValid_mono (fun c' hc' => h c' (List.mem_cons_of_mem _ hc')) hr
      · exact hr

/-- The loop finds an endorsement valid when every condition is not applicable. -/
theorem condsValid_of_forall : ∀ {cs : List String}, (∀ c ∈ cs, f c = some false) →
    condsValid f cs = some true
  | [], _ => rfl
  | c :: cs, h => by
    rw [condsValid_cons_of_false (h c (List.mem_cons_self _ _))]
    exact condsValid_of_forall fun c' hc' => h c' (List.mem_cons_of_mem _ hc')

/-- The loop finds an endorsement invalid at an applicable condition after ones that are not. -/
theorem condsValid_of_split {c : String} {post : List String} :
    ∀ {pre : List String}, (∀ p ∈ pre, f p = some false) → f c = some true →
      condsValid f (pre ++ c :: post) = some false
  | [], _, hc => by simp [condsValid, hc]
  | p :: pre, h, hc => by
    rw [List.cons_append, condsValid_cons_of_false (h p (List.mem_cons_self _ _))]
    exact condsValid_of_split (fun p' hp' => h p' (List.mem_cons_of_mem _ hp')) hc

/-- A determined loop that meets no applicable condition has seen every condition not applicable. -/
theorem forall_of_condsValid : ∀ {cs : List String} {r : Bool}, condsValid f cs = some r →
    (∀ c ∈ cs, f c ≠ some true) → ∀ c ∈ cs, f c = some false
  | [], _, _, _ => by simp
  | c :: cs, r, h, hne => by
    cases hc : f c with
    | none => simp [condsValid, hc] at h
    | some b =>
      cases b
      · rw [condsValid_cons_of_false hc] at h
        intro c' hc'
        rcases List.mem_cons.mp hc' with rfl | hc'
        · exact hc
        · exact forall_of_condsValid h (fun c'' h'' => hne c'' (List.mem_cons_of_mem _ h'')) c' hc'
      · exact absurd hc (hne c (List.mem_cons_self _ _))

/-- A determined loop reaches, and determines, every condition up to the first applicable one. -/
theorem split_of_condsValid {c : String} {post : List String} :
    ∀ {pre : List String} {r : Bool}, condsValid f (pre ++ c :: post) = some r →
      (∀ p ∈ pre, f p ≠ some true) → (∀ p ∈ pre, f p = some false) ∧ f c ≠ none
  | [], r, h, _ => ⟨by simp, fun hc => by simp [condsValid, hc] at h⟩
  | p :: pre, r, h, hne => by
    cases hp : f p with
    | none => simp [condsValid, hp] at h
    | some b =>
      cases b
      · rw [List.cons_append, condsValid_cons_of_false hp] at h
        obtain ⟨hpre, hc⟩ := split_of_condsValid h fun p' h' => hne p' (List.mem_cons_of_mem _ h')
        exact ⟨fun p' hp' => (List.mem_cons.mp hp').elim (· ▸ hp) (hpre p'), hc⟩
      · exact absurd hp (hne p (List.mem_cons_self _ _))

theorem countValid_mono : ∀ {es : List EndorsementInfo},
    (∀ e ∈ es, ∀ c ∈ e.endorsement.conditions, ∀ b, f c = some b → g c = some b) →
      ∀ {n}, countValid f es = some n → countValid g es = some n
  | [], _, _, hn => hn
  | e :: es, h, n, hn => by
    simp only [countValid, Option.bind_eq_some, Option.map_eq_some'] at hn ⊢
    obtain ⟨r, hr, m, hm, rfl⟩ := hn
    exact ⟨r, condsValid_mono (h e (List.mem_cons_self _ _)) hr, m,
      countValid_mono (fun e' he' => h e' (List.mem_cons_of_mem _ he')) hm, rfl⟩

/-- A determined count has determined the validity of every endorsement. -/
theorem condsValid_of_countValid : ∀ {es : List EndorsementInfo} {n : Nat}, countValid f es = some n →
    ∀ e ∈ es, ∃ r, condsValid f e.endorsement.conditions = some r
  | [], _, _, e, he => by simp at he
  | e' :: es, n, hn, e, he => by
    simp only [countValid, Option.bind_eq_some, Option.map_eq_some'] at hn
    obtain ⟨r, hr, m, hm, -⟩ := hn
    rcases List.mem_cons.mp he with rfl | he
    · exact ⟨r, hr⟩
    · exact condsValid_of_countValid hm e he

/-- When every endorsement's cached result is its determined validity, the loop counts the cached
results. -/
theorem countValid_eq_countP : ∀ {es : List EndorsementInfo},
    (∀ e ∈ es, condsValid f e.endorsement.conditions = some e.cached.result) →
      countValid f es = some (es.countP (·.cached.result))
  | [], _ => rfl
  | e :: es, h => by
    simp only [countValid, h e (List.mem_cons_self _ _), Option.some_bind,
      countValid_eq_countP fun e' he' => h e' (List.mem_cons_of_mem _ he'), Option.map_some',
      List.countP_cons]
    split <;> simp_all

@[simp] theorem countValid_map_erase (f : String → Option Bool) :
    ∀ es : List EndorsementInfo, countValid f (es.map EndorsementInfo.erase) = countValid f es
  | [] => rfl
  | e :: es => by simp [countValid, countValid_map_erase f es]

end

/-! ### Stages -/

section
variable {s : QueryStore} {f g : String → Option Bool} {u : String}

theorem evalStep_mono (h : ∀ c, s.DependsOn u c → ∀ b, f c = some b → g c = some b) {b : Bool}
    (hu : s.evalStep f u = some b) : s.evalStep g u = some b := by
  unfold evalStep at hu ⊢
  cases hq : s.queries u with
  | none => simpa [hq] using hu
  | some qi =>
    simp only [hq] at hu ⊢
    cases hst : qi.state <;> simp only [hst] at hu ⊢
    · split_ifs at hu ⊢
      · exact hu
      · obtain ⟨n, hn, rfl⟩ := Option.map_eq_some'.mp hu
        exact Option.map_eq_some'.mpr ⟨n, countValid_mono (fun e he c hc =>
          h c (dependsOn_of_mem hq he hc)) hn, rfl⟩
    · exact hu
    · exact hu

/-- A pending query with too few endorsements is not applicable. -/
theorem evalStep_of_lt {q : QueryInfo} (hu : s.queries u = some q) (hq : q.state = .pending)
    (hlen : (q.endorsements.length : Int) < s.threshold) : s.evalStep f u = some false := by
  simp [evalStep, hu, hq, hlen]

/-- A pending query whose endorsements have their determined validity as cached result evaluates
to the count of the cached results against the threshold. -/
theorem evalStep_eq_count {q : QueryInfo} (hu : s.queries u = some q) (hq : q.state = .pending)
    (he : ∀ e ∈ q.endorsements, condsValid f e.endorsement.conditions = some e.cached.result) :
    s.evalStep f u = some (decide (s.threshold ≤ (q.endorsements.countP (·.cached.result) : Int))) := by
  by_cases hlen : (q.endorsements.length : Int) < s.threshold
  · rw [evalStep_of_lt hu hq hlen]
    have := List.countP_le_length (·.cached.result) (l := q.endorsements)
    simp only [Option.some.injEq, false_eq_decide_iff, not_le]
    omega
  · simp [evalStep, hu, hq, hlen, countValid_eq_countP he]

theorem evalStage_succ : ∀ {k : Nat} {u : String} {b : Bool}, s.evalStage k u = some b →
    s.evalStage (k + 1) u = some b
  | 0, _, _, h => by simp [evalStage] at h
  | k + 1, _, _, h => evalStep_mono (fun _ _ _ hc => evalStage_succ hc) h

theorem evalStage_le {k k' : Nat} (hk : k ≤ k') {b : Bool} (h : s.evalStage k u = some b) :
    s.evalStage k' u = some b := by
  induction hk with
  | refl => exact h
  | step _ ih => exact evalStage_succ ih

theorem Evaluates.unique {b b' : Bool} (h : s.Evaluates u b) (h' : s.Evaluates u b') : b = b' := by
  obtain ⟨k, hk⟩ := h
  obtain ⟨k', hk'⟩ := h'
  have := (evalStage_le (le_max_left k k') hk).symm.trans (evalStage_le (le_max_right k k') hk')
  exact Option.some.inj this

/-- Finitely many evaluated queries are evaluated by one stage. -/
theorem exists_stage : ∀ {l : List String}, (∀ c ∈ l, ∀ b, f c = some b → s.Evaluates c b) →
    ∃ k, ∀ c ∈ l, ∀ b, f c = some b → s.evalStage k c = some b
  | [], _ => ⟨0, by simp⟩
  | c :: l, h => by
    obtain ⟨k, hk⟩ := exists_stage fun c' hc' => h c' (List.mem_cons_of_mem _ hc')
    obtain ⟨kc, hkc⟩ : ∃ kc, ∀ b, f c = some b → s.evalStage kc c = some b := by
      cases hc : f c with
      | none => exact ⟨0, by simp⟩
      | some b =>
        obtain ⟨kc, hkc⟩ := h c (List.mem_cons_self _ _) b hc
        exact ⟨kc, fun b' hb' => by rw [Option.some.inj hb'.symm]; exact hkc⟩
    refine ⟨max k kc, fun c' hc' b hb => ?_⟩
    rcases List.mem_cons.mp hc' with rfl | hc'
    · exact evalStage_le (le_max_right _ _) (hkc b hb)
    · exact evalStage_le (le_max_left _ _) (hk c' hc' b hb)

/-- The evaluation is a fixed point of its unfolding. -/
theorem evaluates_of_evalStep (h : ∀ c, s.DependsOn u c → ∀ b, f c = some b → s.Evaluates c b)
    {b : Bool} (hu : s.evalStep f u = some b) : s.Evaluates u b := by
  let l := (s.endorsementsOf u).flatMap fun e => e.endorsement.conditions
  have hdep : ∀ c, s.DependsOn u c → c ∈ l := fun c ⟨qi, hq, e, he, hc⟩ =>
    List.mem_flatMap.mpr ⟨e, by simpa [endorsementsOf, hq] using he, hc⟩
  have hmem : ∀ c ∈ l, s.DependsOn u c := fun c hc => by
    obtain ⟨e, he, hc⟩ := List.mem_flatMap.mp hc
    cases hq : s.queries u with
    | none => simp [endorsementsOf, hq] at he
    | some qi => exact dependsOn_of_mem hq (by simpa [endorsementsOf, hq] using he) hc
  obtain ⟨k, hk⟩ := exists_stage fun c hc => h c (hmem c hc)
  exact ⟨k + 1, evalStep_mono (fun c hc => hk c (hdep c hc)) hu⟩

/-- `c` is determined one stage before `u` is. -/
def Before (s : QueryStore) (c u : String) : Prop :=
  ∀ k, (s.evalStage (k + 1) u).isSome → (s.evalStage k c).isSome

/-- `w` is determined by every stage that determines `c`. -/
def NotAfter (s : QueryStore) (w c : String) : Prop :=
  ∀ k, (s.evalStage k c).isSome → (s.evalStage k w).isSome

theorem NotAfter.refl (s : QueryStore) (w : String) : s.NotAfter w w := fun _ => id

theorem NotAfter.trans {w c d : String} (h : s.NotAfter w c) (h' : s.NotAfter c d) :
    s.NotAfter w d := fun k hk => h k (h' k hk)

theorem isSome_evalStage_succ {k : Nat} {w : String} (h : (s.evalStage k w).isSome) :
    (s.evalStage (k + 1) w).isSome := by
  obtain ⟨b, hb⟩ := Option.isSome_iff_exists.mp h
  simp [evalStage_succ hb]

/-- What `c` does not come after comes before every query that `c` comes before. -/
theorem Before.notAfter {c w : String} (h : s.Before c u) (hw : s.NotAfter w c) :
    s.NotAfter w u
  | 0, h0 => by simp [evalStage] at h0
  | k + 1, hk => isSome_evalStage_succ (hw k (h k hk))

/-- A query determined no earlier than a query that comes before it is never determined. -/
theorem Before.not_evaluates {c : String} (h : s.Before c u) (hu : s.NotAfter u c) (b : Bool) :
    ¬s.Evaluates u b := by
  have hnone : ∀ k, s.evalStage k u = none := fun k => by
    induction k with
    | zero => rfl
    | succ k ih =>
      by_contra hne
      simpa [ih] using hu k (h k (Option.isSome_iff_ne_none.mpr hne))
  rintro ⟨k, hk⟩
  simp [hnone k] at hk

/-- A condition that the evaluation of a pending query with enough endorsements reaches, after
conditions that evaluate not applicable, comes before the query. -/
theorem before_of_reached {q : QueryInfo} (hu : s.queries u = some q) (hq : q.state = .pending)
    (hlen : s.threshold ≤ (q.endorsements.length : Int)) {e : EndorsementInfo}
    (he : e ∈ q.endorsements) {pre : List String} {c : String} {post : List String}
    (hcs : e.endorsement.conditions = pre ++ c :: post) (hpre : ∀ p ∈ pre, s.Evaluates p false) :
    s.Before c u := by
  intro k hk
  obtain ⟨b, hb⟩ := Option.isSome_iff_exists.mp hk
  simp only [evalStage, evalStep, hu, hq, not_lt.mpr hlen, if_false] at hb
  obtain ⟨n, hn, -⟩ := Option.map_eq_some'.mp hb
  obtain ⟨r, hr⟩ := condsValid_of_countValid hn e he
  rw [hcs] at hr
  obtain ⟨-, hne⟩ := split_of_condsValid hr fun p hp ht =>
    Bool.false_ne_true (Evaluates.unique (hpre p hp) ⟨k, ht⟩)
  exact Option.isSome_iff_ne_none.mpr hne

end

/-! ### Content and soundness -/

theorem SameContent.evalStep_eq {s s' : QueryStore} (h : s.SameContent s')
    (f : String → Option Bool) (u : String) : s.evalStep f u = s'.evalStep f u := by
  unfold evalStep
  cases hu : s.queries u with
  | none => rw [(h.none_iff).mp hu]
  | some qi =>
    obtain ⟨qi', hu', he⟩ := h.some_iff hu
    have hmap := QueryInfo.map_erase_of_erase he
    have hst := QueryInfo.state_eq_of_erase he.symm
    have hlen : qi.endorsements.length = qi'.endorsements.length := by
      simpa using congrArg List.length hmap.symm
    have hcount : countValid f qi.endorsements = countValid f qi'.endorsements := by
      rw [← countValid_map_erase, ← hmap, countValid_map_erase]
    rw [hu']
    dsimp only
    rw [hst, hlen, hcount, h.threshold]

theorem SameContent.evalStage_eq {s s' : QueryStore} (h : s.SameContent s') :
    ∀ k, s.evalStage k = s'.evalStage k
  | 0 => rfl
  | k + 1 => funext fun u => by
    show s.evalStep (s.evalStage k) u = s'.evalStep (s'.evalStage k) u
    rw [h.evalStage_eq k, h.evalStep_eq]

theorem SameContent.evaluates {s s' : QueryStore} (h : s.SameContent s') {u : String} {b : Bool} :
    s.Evaluates u b ↔ s'.Evaluates u b := by
  simp only [Evaluates, h.evalStage_eq]

/-- A value the store vouches for without looking at a cache is determined at every stage but
the first. -/
theorem evalStage_of_settled_stale {s : QueryStore} {u : String} {b : Bool}
    (hb : s.settled u = some b) (hs : ∀ qi, s.queries u = some qi → qi.state = .pending → False)
    (k : Nat) : s.evalStage (k + 1) u = some b := by
  simp only [evalStage, evalStep]
  unfold settled at hb
  cases hu : s.queries u with
  | none => simpa [hu] using hb
  | some qi =>
    simp only [hu] at hb ⊢
    cases hst : qi.state <;> simp only [hst] at hb ⊢
    · exact absurd hst (hs qi hu)
    · exact hb
    · exact hb

/-- A store with no fresh cache on a pending entry is sound: it vouches only for what it reads
without a cache. -/
theorem sound_of_stale {s : QueryStore}
    (h : ∀ u qi, s.queries u = some qi → qi.state = .pending → qi.cached.fresh = false) :
    s.Sound := fun u b hb =>
  ⟨1, evalStage_of_settled_stale hb (fun qi hu hp => by simp [settled, hu, hp, h u qi hu hp] at hb) 0⟩

/-- A justified endorsement's cached result is its validity for every values that agree with the
store on the conditions it vouches for. -/
theorem Justified.condsValid_eq {s : QueryStore} {d : String} {e : EndorsementInfo}
    {f : String → Option Bool} (hj : s.Justified d e)
    (hf : ∀ c ∈ e.endorsement.conditions, ∀ b, s.Vouched d c b → f c = some b) :
    condsValid f e.endorsement.conditions = some e.cached.result := by
  unfold Justified at hj
  by_cases hr : e.cached.result = true
  · rw [if_pos hr] at hj
    rw [hr]
    exact condsValid_of_forall fun c hc => hf c hc false (hj c hc)
  · rw [if_neg hr] at hj
    obtain ⟨pre, c, post, hcs, hpre, hc⟩ := hj
    rw [Bool.eq_false_iff.mpr hr, hcs]
    exact condsValid_of_split (fun p hp => hf p (by simp [hcs, hp]) false (hpre p hp))
      (hf c (by simp [hcs]) true hc)

/-- A pending query whose endorsements are all justified evaluates to the count of their cached
results against the threshold, when every value the store vouches for on its conditions is the
value of the evaluation. -/
theorem evaluates_of_justified {s : QueryStore} {u : String} {q : QueryInfo}
    (hu : s.queries u = some q) (hq : q.state = .pending)
    (hj : ∀ e ∈ q.endorsements, s.Justified u e)
    (hv : ∀ c, s.DependsOn u c → ∀ b, s.settled c = some b → s.Evaluates c b) :
    s.Evaluates u (decide (s.threshold ≤ (q.endorsements.countP (·.cached.result) : Int))) := by
  have hmem : ∀ e ∈ q.endorsements, ∀ c ∈ e.endorsement.conditions,
      c ∈ q.endorsements.flatMap fun e => e.endorsement.conditions :=
    fun e he c hc => List.mem_flatMap.mpr ⟨e, he, hc⟩
  obtain ⟨k, hk⟩ := exists_stage (f := s.settled) fun c hc b hb => by
    obtain ⟨e, he, hc⟩ := List.mem_flatMap.mp hc
    exact hv c (dependsOn_of_mem hu he hc) b hb
  exact ⟨k + 1, evalStep_eq_count hu hq fun e he => (hj e he).condsValid_eq
    fun c hc b hb => hk c (hmem e he c hc) b hb.2⟩

theorem SameContent.notAfter_iff {s s' : QueryStore} (h : s.SameContent s') {w c : String} :
    s.NotAfter w c ↔ s'.NotAfter w c := by
  simp only [NotAfter, h.evalStage_eq]

/-- A stage of the old store that determines a condition the new store still vouches for determines
it in the new store, when the cache has decayed: by induction on the stage, through the
justifications of the fresh entries. -/
theorem Decays.evalStage_of_settled {s s' : QueryStore} (h : Decays s s') (hc : s.Coherent) (hs : s.Sound) :
    ∀ k w v, s'.settled w = some v → s.evalStage k w = some v → s'.evalStage k w = some v := by
  intro k
  induction k with
  | zero => intro w v _ h0; simp [evalStage] at h0
  | succ k ih =>
    intro w v hw hk
    by_cases hpend : ∃ qi', s'.queries w = some qi' ∧ qi'.state = .pending
    swap
    · exact evalStage_of_settled_stale hw (fun qi hq hp => hpend ⟨qi, hq, hp⟩) k
    obtain ⟨qi', hq', hp'⟩ := hpend
    have hfresh : qi'.cached.fresh = true := by
      by_contra hf
      simp [QueryStore.settled, hq', hp', hf] at hw
    have hv : qi'.cached.result = v := by simpa [QueryStore.settled, hq', hp', hfresh] using hw
    obtain ⟨qi, hq, hp, hca, hes⟩ := h.node w qi' hq' hp' hfresh
    have hk' : s.evalStep (s.evalStage k) w = some v := hk
    by_cases hlen : (qi.endorsements.length : Int) < s.threshold
    · rw [evalStep_of_lt hq hp hlen] at hk'
      rw [← hk']
      exact evalStep_of_lt hq' hp' (by rwa [← hes, h.threshold])
    rcases hc.node w qi hq hp (hca ▸ hfresh) with ⟨hlen', -⟩ | ⟨hall, hres⟩
    · exact absurd hlen' hlen
    simp only [evalStep, hq, hp, hlen, if_false] at hk'
    obtain ⟨n, hn, -⟩ := Option.map_eq_some'.mp hk'
    have hval : ∀ c, s.settled c = some true → s.evalStage k c ≠ some false := fun c hc' hk0 =>
      Bool.false_ne_true (Evaluates.unique ⟨k, hk0⟩ (hs c true hc'))
    have hval' : ∀ c, s.settled c = some false → s.evalStage k c ≠ some true := fun c hc' hk0 =>
      Bool.false_ne_true (Evaluates.unique (hs c false hc') ⟨k, hk0⟩)
    have hcount : ∀ e ∈ qi'.endorsements,
        condsValid (s'.evalStage k) e.endorsement.conditions = some e.cached.result := by
      intro e he
      have he0 : e ∈ qi.endorsements := hes ▸ he
      have hkeep := fun c hce v hv => h.vouched hq' he (hall e he0) hce (v := v) (c := c) hv
      obtain ⟨r, hr⟩ := condsValid_of_countValid hn e he0
      have hj := hc.endorsement w qi hq e he0 (hall e he0)
      unfold Justified at hj
      by_cases hres : e.cached.result = true
      · rw [if_pos hres] at hj
        have hall' := forall_of_condsValid hr fun c hce => hval' c (hj c hce).2
        rw [hres]
        exact condsValid_of_forall fun c hce =>
          ih c false (hkeep c hce false (hj c hce)).2 (hall' c hce)
      · rw [if_neg hres] at hj
        obtain ⟨pre, c, post, hcs, hpre, hcv⟩ := hj
        rw [hcs] at hr
        obtain ⟨hpre', hc'⟩ := split_of_condsValid hr fun p hp => hval' p (hpre p hp).2
        have hmem : c ∈ e.endorsement.conditions := by simp [hcs]
        have hc0 : s.evalStage k c = some true := by
          obtain ⟨b, hb⟩ := Option.ne_none_iff_exists'.mp hc'
          cases b
          · exact absurd hb (hval c hcv.2)
          · exact hb
        rw [Bool.eq_false_iff.mpr hres, hcs]
        exact condsValid_of_split (fun p hp => ih p false
          (hkeep p (by simp [hcs, hp]) false (hpre p hp)).2 (hpre' p hp))
          (ih c true (hkeep c hmem true hcv).2 hc0)
    show s'.evalStep (s'.evalStage k) w = some v
    rw [evalStep_eq_count hq' hp' hcount, ← hv, ← hca, hres, hes, h.threshold]

/-- A coherent, sound store stays sound when its cache decays. -/
theorem Decays.sound {s s' : QueryStore} (h : Decays s s') (hc : s.Coherent) (hs : s.Sound) :
    s'.Sound := by
  intro w v hw
  by_cases hpend : ∃ qi', s'.queries w = some qi' ∧ qi'.state = .pending
  · obtain ⟨qi', hq', hp'⟩ := hpend
    have hfresh : qi'.cached.fresh = true := by
      by_contra hf
      simp [QueryStore.settled, hq', hp', hf] at hw
    obtain ⟨qi, hq, hp, hca, -⟩ := h.node w qi' hq' hp' hfresh
    have hsv : s.settled w = some v := by
      simpa [QueryStore.settled, hq, hp, hca, hfresh, hq', hp'] using hw
    obtain ⟨k, hk⟩ := hs w v hsv
    exact ⟨k, h.evalStage_of_settled hc hs k w v hw hk⟩
  · exact ⟨1, evalStage_of_settled_stale hw (fun qi hq hp => hpend ⟨qi, hq, hp⟩) 0⟩

end QueryStore

end PnyxDB.Consensus
