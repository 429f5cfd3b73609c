import PnyxDB.Consensus.QueryStore.Content

/-!
`isApplicable` computes the uncached predicate and only fills the cache.

On a store whose condition graph is ranked and which satisfies `Coherent` and `IndexComplete`, the
call `isApplicable n s u` returns `app u` as soon as the fuel `n` exceeds the rank of `u`
(`isApplicable_spec`). Its effect is a *refresh*: the content is unchanged, every value the store
vouched for is still vouched for, the invariant holds again, and no entry of higher rank is touched.
The proof is by induction on the rank, through the two loops of the function.
-/

namespace PnyxDB.Consensus

namespace QueryStore

/-- Every value `s` vouches for, `s'` vouches for as well. -/
def SettledLe (s s' : QueryStore) : Prop := ∀ c b, s.settled c = some b → s'.settled c = some b

theorem Justified.mono {s s' : QueryStore} {d : String} {e : EndorsementInfo}
    (hs : s.SameContent s') (hl : SettledLe s s') (hj : s.Justified d e) : s'.Justified d e :=
  hj.of_vouched fun _ _ _ hv => ⟨hs.indexed hv.1, hl _ _ hv.2⟩

/-- `s'` is `s` with more of the cache filled in: the same content, the values `s` vouches for,
the invariant, and the entries of rank at least `r` untouched. -/
structure Refresh (rank : String → Nat) (r : Nat) (s s' : QueryStore) : Prop where
  same : s.SameContent s'
  settled : SettledLe s s'
  coherent : s'.Coherent
  frame : ∀ v, r ≤ rank v → s'.queries v = s.queries v

namespace Refresh

variable {rank : String → Nat} {r : Nat} {s s' s'' : QueryStore}

theorem refl (hc : s.Coherent) : Refresh rank r s s :=
  ⟨.refl s, fun _ _ => id, hc, fun _ _ => rfl⟩

theorem trans (h : Refresh rank r s s') (h' : Refresh rank r s' s'') : Refresh rank r s s'' :=
  ⟨h.same.trans h'.same, fun c b hb => h'.settled c b (h.settled c b hb), h'.coherent,
    fun v hv => (h'.frame v hv).trans (h.frame v hv)⟩

theorem mono (h : Refresh rank r s s') {r' : Nat} (hr : r ≤ r') : Refresh rank r' s s' :=
  { h with frame := fun v hv => h.frame v (le_trans hr hv) }

end Refresh

/-- Replacing the entry of `u` by one with the same content keeps the invariant, as long as the new
entry is itself coherent and the value of `u` the store vouched for is kept. -/
theorem refresh_setQuery {rank : String → Nat} {s : QueryStore} {u : String}
    {qi qi' : QueryInfo} (hc : s.Coherent) (hu : s.queries u = some qi)
    (hsame : qi'.erase = qi.erase)
    (hset : ∀ b, s.settled u = some b → (s.setQuery u qi').settled u = some b)
    (hnode : qi'.state = .pending → qi'.cached.fresh = true → NodeCached s.threshold qi')
    (hend : ∀ e ∈ qi'.endorsements, e.cached.fresh = true → s.Justified u e) :
    Refresh rank (rank u + 1) s (s.setQuery u qi') := by
  have hsc : s.SameContent (s.setQuery u qi') :=
    ⟨fun v => by by_cases hv : v = u <;> simp [hv, hu, hsame], rfl, rfl, rfl⟩
  have hle : SettledLe s (s.setQuery u qi') := fun v b hb => by
    by_cases hv : v = u
    · exact hv ▸ hset b (hv ▸ hb)
    · simpa [settled, hv] using hb
  refine ⟨hsc, hle, ⟨fun d qd hd => ?_, fun d qd hd e he hf => ?_⟩, fun v hv => ?_⟩
  · by_cases hdu : d = u
    · simp only [setQuery_queries, hdu, if_true, Option.some.injEq] at hd
      exact hd ▸ hnode
    · simp only [setQuery_queries, hdu, if_false, setQuery_threshold] at hd ⊢
      exact hc.node d qd hd
  · by_cases hdu : d = u
    · subst hdu
      simp only [setQuery_queries, if_true, Option.some.injEq] at hd
      subst hd
      exact (hend e he hf).mono hsc hle
    · simp only [setQuery_queries, hdu, if_false] at hd
      exact (hc.endorsement d qd hd e he hf).mono hsc hle
  · have hvu : v ≠ u := by rintro rfl; omega
    simp only [setQuery_queries, hvu, if_false]

theorem endorsementsOf_of_eq {s : QueryStore} {u : String} {qi : QueryInfo}
    (h : s.queries u = some qi) : s.endorsementsOf u = qi.endorsements := by
  simp [endorsementsOf, h]

theorem setEndorsement_of_eq {s : QueryStore} {u : String} {qi : QueryInfo} (i : Nat)
    (e : EndorsementInfo) (h : s.queries u = some qi) :
    s.setEndorsement u i e = s.setQuery u { qi with endorsements := qi.endorsements.set i e } := by
  simp [setEndorsement, h]

theorem erase_set_of_getElem? {l : List EndorsementInfo} {k : Nat} {e e' : EndorsementInfo}
    (hk : l[k]? = some e) (he : e'.erase = e.erase) :
    (l.set k e').map EndorsementInfo.erase = l.map EndorsementInfo.erase :=
  List.ext_getElem? fun i => by
    by_cases hi : k = i
    · subst hi
      obtain ⟨hlt, hget⟩ := List.getElem?_eq_some_iff.mp hk
      simp [List.getElem?_set, hlt, hget, he]
    · simp [List.getElem?_set_ne hi]

theorem take_set_self {α : Type} (l : List α) (k : Nat) (a : α) :
    (l.set k a).take k = l.take k :=
  List.ext_getElem? fun i => by
    rw [List.getElem?_take, List.getElem?_take]
    split
    · rw [List.getElem?_set_ne (by omega)]
    · rfl

theorem conditionsValid_cons {isApp : QueryStore → String → Option (Bool × QueryStore)}
    {s s' : QueryStore} {c : String} {cs : List String} {r : Bool} (h : isApp s c = some (r, s')) :
    conditionsValid isApp s (c :: cs) =
      if r then some (false, s') else conditionsValid isApp s' cs := by
  simp [conditionsValid, h]

section

variable {s₀ : QueryStore} {rank : String → Nat} {f : String → Bool}

/-- The condition loop returns the validity of the endorsement for `app` and leaves every condition
it looked at settled: all of them not applicable, or the applicable one it stopped at. -/
theorem conditionsValid_spec {n R : Nat}
    (ih : ∀ c, rank c < R → ∀ s, s₀.SameContent s → s.Coherent → ∃ s',
      isApplicable n s c = some (f c, s') ∧ Refresh rank (rank c + 1) s s' ∧
        s'.settled c = some (f c)) :
    ∀ (cs : List String) (s : QueryStore), s₀.SameContent s → s.Coherent → (∀ c ∈ cs, rank c < R) →
      ∃ s', conditionsValid (isApplicable n) s cs = some (cs.all (fun c => !f c), s') ∧
        Refresh rank R s s' ∧
        ((cs.all fun c => !f c) = true → ∀ c ∈ cs, s'.settled c = some false) ∧
        ((cs.all fun c => !f c) = false → ∃ pre c post, cs = pre ++ c :: post ∧
          (∀ p ∈ pre, s'.settled p = some false) ∧ s'.settled c = some true)
  | [], s, _, hc, _ => ⟨s, rfl, .refl hc, by simp, by simp⟩
  | c :: cs, s, hs, hc, hr => by
    obtain ⟨s1, h1, hR1, hset1⟩ := ih c (hr c (List.mem_cons_self _ _)) s hs hc
    have hR1' := hR1.mono (hr c (List.mem_cons_self _ _))
    rw [conditionsValid_cons h1]
    cases hfc : f c
    · obtain ⟨s2, h2, hR2, hall, hex⟩ := conditionsValid_spec ih cs s1 (hs.trans hR1.same)
        hR1.coherent fun c' h => hr c' (List.mem_cons_of_mem _ h)
      refine ⟨s2, by simpa [hfc] using h2, hR1'.trans hR2, fun h c' hc' => ?_, fun h => ?_⟩
      · rcases List.mem_cons.mp hc' with rfl | hc'
        · exact hR2.settled _ _ (hfc ▸ hset1)
        · exact hall (by simpa [hfc] using h) c' hc'
      · obtain ⟨pre, c', post, hcs, hpre, hv⟩ := hex (by simpa [hfc] using h)
        exact ⟨c :: pre, c', post, by simp [hcs], fun p hp => (List.mem_cons.mp hp).elim
          (fun h => h ▸ hR2.settled _ _ (hfc ▸ hset1)) (hpre p), hv⟩
    · exact ⟨s1, by simp [hfc], hR1', by simp [hfc], fun _ => ⟨[], c, cs, rfl, by simp,
        hfc ▸ hset1⟩⟩

/-- The entry of the query under evaluation while its endorsement loop runs: the content and the
stale cache of `q`, with the endorsements before index `k` fresh. -/
def LoopEntry (q : QueryInfo) (k : Nat) (qi : QueryInfo) : Prop :=
  qi.erase = q.erase ∧ qi.cached = q.cached ∧
    ∀ j < k, ∀ e, qi.endorsements[j]? = some e → e.cached.fresh = true

theorem length_eq_of_erase {qi q : QueryInfo} (h : qi.erase = q.erase) :
    qi.endorsements.length = q.endorsements.length := by
  simpa using congrArg (fun qi => qi.endorsements.length) h

/-- When the loop is done every endorsement is fresh. -/
theorem LoopEntry.fresh_of_done {q qi : QueryInfo} (hl : LoopEntry q q.endorsements.length qi) :
    ∀ e ∈ qi.endorsements, e.cached.fresh = true := fun e he => by
  obtain ⟨j, hj⟩ := List.mem_iff_getElem?.mp he
  exact hl.2.2 j (by rw [← length_eq_of_erase hl.1]; exact (List.getElem?_eq_some_iff.mp hj).1) e hj

theorem LoopEntry.succ_of_fresh {q qi : QueryInfo} {k : Nat} {e : EndorsementInfo}
    (hl : LoopEntry q k qi) (he : qi.endorsements[k]? = some e) (hf : e.cached.fresh = true) :
    LoopEntry q (k + 1) qi := by
  refine ⟨hl.1, hl.2.1, fun j hj e' he' => ?_⟩
  rcases Nat.lt_succ_iff_lt_or_eq.mp hj with hj | rfl
  · exact hl.2.2 j hj e' he'
  · exact Option.some.inj (he.symm.trans he') ▸ hf

theorem countP_take_succ {l : List EndorsementInfo} {k : Nat} {e : EndorsementInfo}
    (h : l[k]? = some e) :
    (l.take (k + 1)).countP (·.cached.result) =
      (l.take k).countP (·.cached.result) + if e.cached.result then 1 else 0 := by
  simp [List.take_succ, h, List.countP_append, List.countP_cons]

/-- Recomputing the endorsement at index `k` into a fresh cache moves the loop to `k + 1`, and adds
its result to the count. -/
theorem LoopEntry.set_fresh {q qi : QueryInfo} {k : Nat} {e : EndorsementInfo}
    (hl : LoopEntry q k qi) (he : qi.endorsements[k]? = some e) (ok : Bool) :
    { qi with endorsements := qi.endorsements.set k { e with cached := CachedInfo.set ok } }.erase =
        qi.erase ∧
      LoopEntry q (k + 1)
        { qi with endorsements := qi.endorsements.set k { e with cached := CachedInfo.set ok } } ∧
      ((qi.endorsements.set k { e with cached := CachedInfo.set ok }).take (k + 1)).countP
          (·.cached.result) = (qi.endorsements.take k).countP (·.cached.result) + if ok then 1 else 0 := by
  have hse : { qi with endorsements := qi.endorsements.set k { e with cached := CachedInfo.set ok } }.erase =
      qi.erase := by
    have he' : ({ e with cached := CachedInfo.set ok } : EndorsementInfo).erase = e.erase := rfl
    simp only [QueryInfo.erase, erase_set_of_getElem? he he']
  have hset : (qi.endorsements.set k { e with cached := CachedInfo.set ok })[k]? =
      some { e with cached := CachedInfo.set ok } := by
    simp [List.getElem?_set, (List.getElem?_eq_some_iff.mp he).1]
  refine ⟨hse, ⟨hse.trans hl.1, hl.2.1, fun j hj e2 he2 => ?_⟩, ?_⟩
  · by_cases hjk : j = k
    · subst hjk
      rw [hset] at he2
      exact Option.some.inj he2 ▸ rfl
    · rw [List.getElem?_set_ne (Ne.symm hjk)] at he2
      exact hl.2.2 j (by omega) e2 he2
  · rw [countP_take_succ hset, take_set_self]
    rfl

/-- The entry `isApplicable` writes back after its loop keeps the content of the loop's entry. -/
theorem LoopEntry.erase_writeBack {q qi : QueryInfo} {k : Nat} (hl : LoopEntry q k qi)
    (c : CachedInfo) : { q with endorsements := qi.endorsements, cached := c }.erase = qi.erase :=
  (show _ = q.erase by simp only [QueryInfo.erase, QueryInfo.map_erase_of_erase hl.1]).trans hl.1.symm

/-- The endorsement loop leaves every endorsement of the query fresh and justified, and counts the
valid ones. -/
theorem endorsementsLoop_spec {n : Nat} {u : String} {q : QueryInfo} (hi : s₀.IndexComplete)
    (hq : q.state = .pending) (hstale : q.cached.fresh = false)
    (hdep : ∀ c, s₀.DependsOn u c → rank c < rank u)
    (ih : ∀ c, rank c < rank u → ∀ s, s₀.SameContent s → s.Coherent → ∃ s',
      isApplicable n s c = some (f c, s') ∧ Refresh rank (rank c + 1) s s' ∧
        s'.settled c = some (f c)) :
    ∀ m k valid s qi, k + m = q.endorsements.length → s₀.SameContent s → s.Coherent →
      s.queries u = some qi → LoopEntry q k qi →
      valid = (qi.endorsements.take k).countP (·.cached.result) →
      ∃ valid' s' qi', endorsementsLoop (isApplicable n) u (List.range' k m) valid s =
          some (valid', s') ∧ Refresh rank (rank u + 1) s s' ∧ s'.queries u = some qi' ∧
        LoopEntry q q.endorsements.length qi' ∧
        valid' = qi'.endorsements.countP (·.cached.result) := by
  intro m
  induction m with
  | zero =>
    intro k valid s qi hk hs hc hu hl hv
    refine ⟨valid, s, qi, rfl, .refl hc, hu, by simpa using hk ▸ hl, ?_⟩
    rw [hv, List.take_of_length_le (by rw [length_eq_of_erase hl.1]; omega)]
  | succ m ihm =>
    intro k valid s qi hk hs hc hu hl hv
    have hlen := length_eq_of_erase hl.1
    obtain ⟨e, he⟩ : ∃ e, qi.endorsements[k]? = some e :=
      ⟨_, List.getElem?_eq_getElem (by omega)⟩
    have hemem : e ∈ qi.endorsements := List.mem_iff_getElem?.mpr ⟨k, he⟩
    simp only [List.range'_succ, endorsementsLoop, endorsementsOf_of_eq hu, he]
    split
    · rename_i hfresh
      exact ihm (k + 1) _ s qi (by omega) hs hc hu (hl.succ_of_fresh he hfresh)
        (by rw [countP_take_succ he, hv]; split <;> rfl)
    · rename_i hfresh
      have hsu : s₀.queries u = s₀.queries u := rfl
      obtain ⟨sc, hcv, hRc, hall, hex⟩ := conditionsValid_spec (R := rank u) ih
        e.endorsement.conditions s hs hc fun c hc' =>
          hdep c (hs.symm.dependsOn (dependsOn_of_mem hu hemem hc'))
      have huc : sc.queries u = some qi := (hRc.frame u le_rfl).trans hu
      have hind : ∀ c ∈ e.endorsement.conditions, sc.Indexed u c := fun c hc' => by
        have hd := hs.symm.dependsOn (dependsOn_of_mem hu hemem hc')
        exact (hs.trans hRc.same).indexed (hi u c hd fun h => lt_irrefl _ (h ▸ hdep c hd))
      set ok := e.endorsement.conditions.all fun c => !f c with hok_def
      set e' : EndorsementInfo := { e with cached := CachedInfo.set ok }
      set qi2 : QueryInfo := { qi with endorsements := qi.endorsements.set k e' }
      have hstu : qi.state = .pending := (QueryInfo.state_eq_of_erase hl.1).trans hq
      obtain ⟨hse, hentry, hcount⟩ := hl.set_fresh he ok
      have hn : Refresh rank (rank u + 1) sc (sc.setQuery u qi2) :=
        refresh_setQuery hRc.coherent huc hse
          (fun b hb => by simp [settled, huc, hstu, hl.2.1, hstale] at hb)
          (fun _ hf => by simp [qi2, hl.2.1, hstale] at hf)
          (fun e2 he2 hf => by
            rcases List.mem_or_eq_of_mem_set he2 with he2 | rfl
            · exact hRc.coherent.endorsement u qi huc e2 he2 hf
            · unfold Justified
              cases hok : ok
              · obtain ⟨pre, c, post, hcs, hpre, hv'⟩ := hex hok
                simp only [e', CachedInfo.set_result, hok]
                exact ⟨pre, c, post, hcs, fun p hp => ⟨hind p (by simp [hcs, hp]), hpre p hp⟩,
                  hind c (by simp [hcs]), hv'⟩
              · simp only [e', CachedInfo.set_result, hok, if_true]
                exact fun c hc' => ⟨hind c hc', hall hok c hc'⟩)
      have hvalid : (if ok = true then valid + 1 else valid) =
          (qi2.endorsements.take (k + 1)).countP (·.cached.result) := by
        rw [hcount, hv]
        cases ok <;> rfl
      rw [hcv]
      simp only [Option.bind_eq_bind, Option.some_bind, setEndorsement_of_eq k _ huc]
      obtain ⟨valid', s', qi', h1, h2, h3, h4, h5⟩ := ihm (k + 1) _ (sc.setQuery u qi2) qi2
        (by omega) ((hs.trans hRc.same).trans hn.same) hn.coherent (by simp) hentry hvalid
      exact ⟨valid', s', qi', h1, ((hRc.mono (Nat.le_succ _)).trans hn).trans h2, h3, h4, h5⟩

theorem countP_validFor_of_erase {l l' : List EndorsementInfo} (f : String → Bool)
    (h : l.map EndorsementInfo.erase = l'.map EndorsementInfo.erase) :
    l.countP (validFor f) = l'.countP (validFor f) := by
  have := congrArg (List.countP (validFor f)) h
  simpa [List.countP_map, Function.comp_def] using this

/-- `isApplicable u` returns `app u` once the fuel exceeds the rank of `u`, leaves `u` settled, and
refreshes the store. -/
theorem isApplicable_spec (hr : s₀.Ranked rank) (hf : s₀.IsApp f) (hi : s₀.IndexComplete) :
    ∀ k u, rank u = k → ∀ n, k < n → ∀ s, s₀.SameContent s → s.Coherent →
      ∃ s', isApplicable n s u = some (f u, s') ∧ Refresh rank (k + 1) s s' ∧
        s'.settled u = some (f u) := by
  intro k
  induction k using Nat.strong_induction_on with
  | _ k ih =>
    intro u hk n hn s hs hc
    subst hk
    obtain ⟨n, rfl⟩ : ∃ m, n = m + 1 := ⟨n - 1, by omega⟩
    have hfs : s.IsApp f := hs.isApp hf
    have happ : ∀ b, s.settled u = some b → f u = b := settled_eq_app hc (hs.ranked hr) hfs u
    have done : ∀ b, s.settled u = some b → ∃ s', some (b, s) = some (f u, s') ∧
        Refresh rank (rank u + 1) s s' ∧ s'.settled u = some (f u) := fun b hb =>
      ⟨s, by rw [happ b hb], .refl hc, by rw [happ b hb]; exact hb⟩
    simp only [isApplicable]
    cases hu : s.queries u with
    | none => exact done false (by simp [settled, hu])
    | some q =>
      dsimp only
      by_cases hdrop : q.state = .dropped
      · rw [if_pos hdrop]
        exact done false (by simp [settled, hu, hdrop])
      rw [if_neg hdrop]
      by_cases hcom : q.state = .committed
      · rw [if_pos hcom]
        exact done true (by simp [settled, hu, hcom])
      rw [if_neg hcom]
      have hq : q.state = .pending := by cases h : q.state <;> simp_all
      by_cases hfresh : q.cached.fresh = true
      · rw [if_pos hfresh]
        exact done _ (by simp [settled, hu, hq, hfresh])
      rw [if_neg hfresh]
      have hstale : q.cached.fresh = false := by simpa using hfresh
      have hset : ∀ s' : QueryStore, ∀ b, s.settled u = some b → s'.settled u = some b :=
        fun _ b hb => by simp [settled, hu, hq, hstale] at hb
      have hfu : f u = decide (s.threshold ≤ (q.endorsements.countP (validFor f) : Int)) := by
        rw [hfs u]; simp [appStep, hu, hq]
      by_cases hlen : (q.endorsements.length : Int) < s.threshold
      · rw [if_pos hlen]
        have hf0 : f u = false := by
          have := List.countP_le_length (validFor f) (l := q.endorsements)
          rw [hfu, decide_eq_false_iff_not]
          omega
        refine ⟨s.setQuery u { q with cached := CachedInfo.set false }, by rw [hf0],
          refresh_setQuery hc hu rfl (hset _) (fun _ _ =>
          Or.inl ⟨hlen, rfl⟩) (fun e he hef => hc.endorsement u q hu e he hef), by simp [settled, hq, hf0]⟩
      rw [if_neg hlen]
      obtain ⟨valid', s1, qi', hloop, hR1, hu1, hl1, hv1⟩ :=
        endorsementsLoop_spec (n := n) hi hq hstale (fun c => hr u c)
          (fun c hc' s hs hc => ih (rank c) hc' c rfl n (by omega) s hs hc)
          q.endorsements.length 0 0 s q (by simp) hs hc hu ⟨rfl, rfl, by simp⟩ (by simp)
      have hstu : qi'.state = .pending := (QueryInfo.state_eq_of_erase hl1.1).trans hq
      have hall := hl1.fresh_of_done
      have hcount : q.endorsements.countP (validFor f) = valid' := by
        rw [← countP_validFor_of_erase f (QueryInfo.map_erase_of_erase hl1.1), hv1]
        refine List.countP_congr fun e he => ?_
        rw [validFor_eq_result (hR1.coherent.endorsement u qi' hu1 e he (hall e he))
          fun c _ b hb => settled_eq_app hR1.coherent ((hs.trans hR1.same).ranked hr)
            ((hs.trans hR1.same).isApp hf) c b hb]
      rw [List.range_eq_range', hloop]
      simp only [Option.bind_eq_bind, Option.some_bind, endorsementsOf_of_eq hu1]
      have hfu' : f u = decide (s.threshold ≤ (valid' : Int)) := by rw [hfu, hcount]
      let r := decide (s.threshold ≤ (valid' : Int))
      refine ⟨s1.setQuery u { q with endorsements := qi'.endorsements, cached := CachedInfo.set r },
        by rw [hfu'], hR1.trans (refresh_setQuery hR1.coherent hu1 (hl1.erase_writeBack _)
        (fun b hb => by simp [settled, hu1, hstu, hl1.2.1, hstale] at hb) (fun _ _ => Or.inr
          ⟨hall, by rw [← hR1.same.threshold, ← hv1]; rfl⟩)
        (fun e he hef => hR1.coherent.endorsement u qi' hu1 e he hef)),
        by simp [settled, hq, hfu']⟩

end

end QueryStore

end PnyxDB.Consensus
