import PnyxDB.Consensus.QueryStore.Apply
import PnyxDB.Consensus.QueryStore.Insert

/-!
`isApplicable` with its cache computes the evaluation without cache, on every store with the cache
invariant, cyclic condition graphs included.

A call that returns gives the value its query evaluates to, fills the cache keeping the invariant,
and rewrites only entries determined no later than its query (`isApplicable_memo`). A query that the
evaluation determines is returned by a call with enough fuel (`isApplicable_returns`), found by
induction on the stage that determines it. Together: `isApplicable_iff_evaluates`.

The recursion of a call that returns never comes back to a query it is evaluating: that query would
be determined no later than a condition that comes before it (`Before.not_evaluates`). So the entry
under evaluation keeps its content while its loop runs, and every condition an endorsement's cache
rests on is another query, a dependency the index records.
-/

namespace PnyxDB.Consensus

namespace QueryStore

/-- `s'` is `s` with more of the cache filled in, and the invariant kept. -/
structure Memo (s s' : QueryStore) : Prop where
  same : s.SameContent s'
  settled : SettledLe s s'
  inv : s'.CacheInv

namespace Memo

variable {s s' s'' : QueryStore}

theorem refl (hi : s.CacheInv) : Memo s s := ⟨.refl s, fun _ _ => id, hi⟩

theorem trans (h : Memo s s') (h' : Memo s' s'') : Memo s s'' :=
  ⟨h.same.trans h'.same, fun c b hb => h'.settled c b (h.settled c b hb), h'.inv⟩

end Memo

/-- Rewriting the cache of one entry keeps the invariant when the new entry is coherent and what it
vouches for is the value of the evaluation. -/
theorem memo_setQuery {s : QueryStore} {u : String} {qi qi' : QueryInfo} (hi : s.CacheInv)
    (hu : s.queries u = some qi) (hsame : qi'.erase = qi.erase)
    (hset : ∀ b, s.settled u = some b → (s.setQuery u qi').settled u = some b)
    (hnode : qi'.state = .pending → qi'.cached.fresh = true → NodeCached s.threshold qi')
    (hend : ∀ e ∈ qi'.endorsements, e.cached.fresh = true → s.Justified u e)
    (hval : ∀ b, (s.setQuery u qi').settled u = some b → s.Evaluates u b) :
    Memo s (s.setQuery u qi') := by
  have hR : Refresh (fun _ => 0) 1 s (s.setQuery u qi') :=
    refresh_setQuery hi.coherent hu hsame hset hnode hend
  refine ⟨hR.same, hR.settled, hR.coherent, hR.same.indexComplete hi.indexComplete,
    fun c b hb => hR.same.evaluates.mp ?_⟩
  by_cases hc : c = u
  · subst hc
    exact hval b hb
  · exact hi.sound c b (by rwa [settled_setQuery_ne hc] at hb)

/-- What a call of `isApplicable` with fuel `n` guarantees when it returns: the value of the
evaluation, a filled cache, the query settled, and only entries determined no later than the query
rewritten. -/
def MemoCall (n : Nat) : Prop :=
  ∀ s c b s', s.CacheInv → isApplicable n s c = some (b, s') →
    s.Evaluates c b ∧ Memo s s' ∧ s'.settled c = some b ∧
      ∀ w, s'.queries w ≠ s.queries w → s.NotAfter w c

section

variable {n : Nat}

/-- The condition loop leaves the conditions it looked at settled, and rewrites only entries
determined no later than a condition it reached. -/
theorem conditionsValid_memo (ih : MemoCall n) :
    ∀ (cs : List String) (s : QueryStore) (r : Bool) (s' : QueryStore), s.CacheInv →
      conditionsValid (isApplicable n) s cs = some (r, s') →
      Memo s s' ∧ (r = true → ∀ c ∈ cs, s'.settled c = some false) ∧
        (r = false → ∃ pre c post, cs = pre ++ c :: post ∧
          (∀ p ∈ pre, s'.settled p = some false) ∧ s'.settled c = some true) ∧
        ∀ w, s'.queries w ≠ s.queries w → ∃ pre c post, cs = pre ++ c :: post ∧
          (∀ p ∈ pre, s.Evaluates p false) ∧ (∃ b, s.Evaluates c b) ∧ s.NotAfter w c
  | [], s, r, s', hi, h => by
    simp only [conditionsValid, Option.some.injEq, Prod.mk.injEq] at h
    obtain ⟨rfl, rfl⟩ := h
    exact ⟨.refl hi, by simp, by simp, fun w hw => absurd rfl hw⟩
  | c :: cs, s, r, s', hi, h => by
    cases h1 : isApplicable n s c with
    | none => simp [conditionsValid, h1] at h
    | some p =>
      obtain ⟨b, s1⟩ := p
      obtain ⟨hev, hm1, hset1, hfr1⟩ := ih s c b s1 hi h1
      rw [conditionsValid_cons h1] at h
      cases b
      · simp only [Bool.false_eq_true, if_false] at h
        obtain ⟨hm2, hall, hex, hfr2⟩ := conditionsValid_memo ih cs s1 r s' hm1.inv h
        have hc2 := hm2.settled _ _ hset1
        refine ⟨hm1.trans hm2, fun hr c' hc' => ?_, fun hr => ?_, fun w hw => ?_⟩
        · rcases List.mem_cons.mp hc' with rfl | hc'
          · exact hc2
          · exact hall hr c' hc'
        · obtain ⟨pre, c', post, hcs, hpre, hc'⟩ := hex hr
          exact ⟨c :: pre, c', post, by simp [hcs],
            fun p hp => (List.mem_cons.mp hp).elim (· ▸ hc2) (hpre p), hc'⟩
        · by_cases hw1 : s1.queries w = s.queries w
          · obtain ⟨pre, c', post, hcs, hpre, ⟨b', hb'⟩, hna⟩ := hfr2 w (by rwa [hw1])
            refine ⟨c :: pre, c', post, by simp [hcs], fun p hp => ?_,
              ⟨b', hm1.same.evaluates.mpr hb'⟩, hm1.same.notAfter_iff.mpr hna⟩
            rcases List.mem_cons.mp hp with rfl | hp
            · exact hev
            · exact hm1.same.evaluates.mpr (hpre p hp)
          · exact ⟨[], c, cs, rfl, by simp, ⟨false, hev⟩, hfr1 w hw1⟩
      · simp only [if_true, Option.some.injEq, Prod.mk.injEq] at h
        obtain ⟨rfl, rfl⟩ := h
        exact ⟨hm1, by simp, fun _ => ⟨[], c, cs, rfl, by simp, hset1⟩,
          fun w hw => ⟨[], c, cs, rfl, by simp, ⟨true, hev⟩, hfr1 w hw⟩⟩

/-- One recomputed endorsement of the loop of `isApplicable u`: the entry of `u` is untouched by the
recursion, the new cache is justified by conditions other than `u`, and the invariant holds. -/
theorem loopStep_memo (ih : MemoCall n) {u : String} {q : QueryInfo} (hq : q.state = .pending)
    (hstale : q.cached.fresh = false) {k : Nat} {s : QueryStore} {qi : QueryInfo}
    (hi : s.CacheInv) (hu : s.queries u = some qi) (hl : LoopEntry q k qi)
    (hlen : s.threshold ≤ (q.endorsements.length : Int)) {e : EndorsementInfo}
    (he : qi.endorsements[k]? = some e) {ok : Bool} {sc : QueryStore}
    (hc : conditionsValid (isApplicable n) s e.endorsement.conditions = some (ok, sc)) :
    ∃ qi2, (sc.setEndorsement u k { e with cached := CachedInfo.set ok }).queries u = some qi2 ∧
      LoopEntry q (k + 1) qi2 ∧
      (qi2.endorsements.take (k + 1)).countP (·.cached.result) =
        (qi.endorsements.take k).countP (·.cached.result) + (if ok then 1 else 0) ∧
      Memo s (sc.setEndorsement u k { e with cached := CachedInfo.set ok }) ∧
      ∀ w, (sc.setEndorsement u k { e with cached := CachedInfo.set ok }).queries w ≠ s.queries w →
        s.NotAfter w u := by
  obtain ⟨hmc, hall, hex, hfr⟩ := conditionsValid_memo ih _ s ok sc hi hc
  have hemem : e ∈ qi.endorsements := List.mem_iff_getElem?.mpr ⟨k, he⟩
  have hqst : qi.state = .pending := (QueryInfo.state_eq_of_erase hl.1).trans hq
  have hlen' : s.threshold ≤ (qi.endorsements.length : Int) := by rwa [length_eq_of_erase hl.1]
  have hbefore : ∀ pre c post, e.endorsement.conditions = pre ++ c :: post →
      (∀ p ∈ pre, s.Evaluates p false) → s.Before c u :=
    fun _ _ _ => before_of_reached hu hqst hlen' hemem
  -- the recursion does not come back to `u`
  have huc : sc.queries u = some qi := by
    by_contra hne
    obtain ⟨pre, c, post, hcs, hpre, ⟨b, kb, hkb⟩, hna⟩ := hfr u (by rwa [hu])
    have hb := hbefore pre c post hcs hpre
    obtain ⟨b', hb'⟩ := Option.isSome_iff_exists.mp (hna kb (by simp [hkb]))
    exact hb.not_evaluates hna b' ⟨kb, hb'⟩
  -- so every condition it settled is another query, which the index records
  have hind : ∀ pre c post, e.endorsement.conditions = pre ++ c :: post →
      (∀ p ∈ pre, sc.settled p = some false) → ∀ b, sc.settled c = some b → sc.Indexed u c := by
    intro pre c post hcs hpre b hb
    have hne : u ≠ c := by
      rintro rfl
      exact (hbefore pre u post hcs fun p hp => hmc.same.evaluates.mpr
        (hmc.inv.sound p false (hpre p hp))).not_evaluates (.refl s u) b
        (hmc.same.evaluates.mpr (hmc.inv.sound u b hb))
    exact hmc.inv.indexComplete u c
      (hmc.same.dependsOn (dependsOn_of_mem hu hemem (by simp [hcs]))) hne
  set e' : EndorsementInfo := { e with cached := CachedInfo.set ok }
  set qi2 : QueryInfo := { qi with endorsements := qi.endorsements.set k e' }
  have hj : sc.Justified u e' := by
    unfold Justified
    rw [show e'.endorsement.conditions = e.endorsement.conditions from rfl]
    by_cases hok : ok = true
    · rw [if_pos (show e'.cached.result = true from hok)]
      intro c hc'
      obtain ⟨p1, p2, hcs⟩ := List.append_of_mem hc'
      exact ⟨hind p1 c p2 hcs (fun p hp => hall hok p (by simp [hcs, hp])) false (hall hok c hc'),
        hall hok c hc'⟩
    · rw [if_neg (show ¬e'.cached.result = true from hok)]
      obtain ⟨pre, c, post, hcs, hpre, hc'⟩ := hex (Bool.eq_false_iff.mpr hok)
      refine ⟨pre, c, post, hcs, fun p hp => ⟨?_, hpre p hp⟩, hind pre c post hcs hpre true hc', hc'⟩
      obtain ⟨p1, p2, rfl⟩ := List.append_of_mem hp
      exact hind p1 p (p2 ++ c :: post) (by simp [hcs]) (fun p' hp' => hpre p' (by simp [hp']))
        false (hpre p hp)
  obtain ⟨hse, hentry, hcount⟩ := hl.set_fresh he ok
  have hstu : ∀ b, sc.settled u = some b → False := fun b hb => by
    simp [settled, huc, hqst, hl.2.1, hstale] at hb
  rw [setEndorsement_of_eq k _ huc]
  refine ⟨qi2, by simp, hentry, hcount,
    hmc.trans (memo_setQuery hmc.inv huc hse (fun b hb => (hstu b hb).elim)
    (fun _ hf => by simp [qi2, hl.2.1, hstale] at hf) (fun e2 he2 hf => ?_)
    (fun b hb => by simp [settled, qi2, hqst, hl.2.1, hstale] at hb)), fun w hw => ?_⟩
  · rcases List.mem_or_eq_of_mem_set he2 with he2 | rfl
    · exact hmc.inv.coherent.endorsement u qi huc e2 he2 hf
    · exact hj
  · by_cases hwu : w = u
    · exact hwu ▸ .refl s u
    · simp only [setQuery_queries, hwu, if_false] at hw
      obtain ⟨pre, c, post, hcs, hpre, -, hna⟩ := hfr w hw
      exact (hbefore pre c post hcs hpre).notAfter hna

/-- The endorsement loop of `isApplicable u` leaves every endorsement of `u` fresh and justified,
counts the valid ones, and rewrites only entries determined no later than `u`. -/
theorem endorsementsLoop_memo (ih : MemoCall n) {u : String} {q : QueryInfo}
    (hq : q.state = .pending) (hstale : q.cached.fresh = false) :
    ∀ m k valid s qi, k + m = q.endorsements.length → s.CacheInv → s.queries u = some qi →
      LoopEntry q k qi → s.threshold ≤ (q.endorsements.length : Int) →
      valid = (qi.endorsements.take k).countP (·.cached.result) →
      ∀ valid' s', endorsementsLoop (isApplicable n) u (List.range' k m) valid s = some (valid', s') →
      Memo s s' ∧ (∃ qi', s'.queries u = some qi' ∧ LoopEntry q q.endorsements.length qi' ∧
        valid' = qi'.endorsements.countP (·.cached.result)) ∧
      ∀ w, s'.queries w ≠ s.queries w → s.NotAfter w u := by
  intro m
  induction m with
  | zero =>
    intro k valid s qi hk hi hu hl _ hv valid' s' h
    simp only [List.range'_zero, endorsementsLoop, Option.some.injEq, Prod.mk.injEq] at h
    obtain ⟨rfl, rfl⟩ := h
    refine ⟨.refl hi, ⟨qi, hu, by simpa using hk ▸ hl, ?_⟩, fun w hw => absurd rfl hw⟩
    rw [hv, List.take_of_length_le (by rw [length_eq_of_erase hl.1]; omega)]
  | succ m ihm =>
    intro k valid s qi hk hi hu hl hlen hv valid' s' h
    obtain ⟨e, he⟩ : ∃ e, qi.endorsements[k]? = some e :=
      ⟨_, List.getElem?_eq_getElem (by rw [length_eq_of_erase hl.1]; omega)⟩
    simp only [List.range'_succ, endorsementsLoop, endorsementsOf_of_eq hu, he] at h
    split at h
    · rename_i hfresh
      refine ihm (k + 1) _ s qi (by omega) hi hu (hl.succ_of_fresh he hfresh) hlen ?_ valid' s' h
      rw [countP_take_succ he, hv]
      split <;> rfl
    · cases hc : conditionsValid (isApplicable n) s e.endorsement.conditions with
      | none => simp [hc] at h
      | some p =>
        obtain ⟨ok, sc⟩ := p
        simp only [hc, Option.bind_eq_bind, Option.some_bind] at h
        obtain ⟨qi2, hu2, hl2, hcount, hm, hfr⟩ := loopStep_memo ih hq hstale hi hu hl hlen he hc
        obtain ⟨hm', hq', hfr'⟩ := ihm (k + 1) _ _ qi2 (by omega) hm.inv hu2 hl2
          (by rwa [← hm.same.threshold]) (by rw [hcount, hv]; cases ok <;> rfl) valid' s' h
        refine ⟨hm.trans hm', hq', fun w hw => ?_⟩
        by_cases hw1 : (sc.setEndorsement u k { e with cached := CachedInfo.set ok }).queries w =
            s.queries w
        · exact hm.same.notAfter_iff.mpr (hfr' w (by rwa [hw1]))
        · exact hfr w hw1

/-- A call of `isApplicable` that returns gives the value its query evaluates to, fills the cache
keeping the invariant, leaves the query settled, and rewrites only entries determined no later than
the query. -/
theorem isApplicable_memo : ∀ n, MemoCall n
  | 0 => fun _ _ _ _ _ h => by simp [isApplicable] at h
  | n + 1 => by
    intro s u b s' hi h
    have done : ∀ v, s.settled u = some v → some (v, s) = some (b, s') → s.Evaluates u b ∧
        Memo s s' ∧ s'.settled u = some b ∧ ∀ w, s'.queries w ≠ s.queries w → s.NotAfter w u := by
      intro v hv h'
      obtain ⟨rfl, rfl⟩ := Prod.mk.inj (Option.some.inj h')
      exact ⟨hi.sound u v hv, .refl hi, hv, fun w hw => absurd rfl hw⟩
    simp only [isApplicable] at h
    cases hu : s.queries u with
    | none =>
      rw [hu] at h
      exact done false (by simp [settled, hu]) h
    | some q =>
      rw [hu] at h
      dsimp only at h
      by_cases hdrop : q.state = .dropped
      · rw [if_pos hdrop] at h
        exact done false (by simp [settled, hu, hdrop]) h
      rw [if_neg hdrop] at h
      by_cases hcom : q.state = .committed
      · rw [if_pos hcom] at h
        exact done true (by simp [settled, hu, hcom]) h
      rw [if_neg hcom] at h
      have hq : q.state = .pending := by revert hdrop hcom; cases q.state <;> decide
      by_cases hfresh : q.cached.fresh = true
      · rw [if_pos hfresh] at h
        exact done _ (by simp [settled, hu, hq, hfresh]) h
      rw [if_neg hfresh] at h
      have hstale : q.cached.fresh = false := by simpa using hfresh
      have hframe : ∀ qi, ∀ w, (s.setQuery u qi).queries w ≠ s.queries w → w = u := fun qi w hw => by
        by_contra hwu
        simp [hwu] at hw
      by_cases hlen : (q.endorsements.length : Int) < s.threshold
      · rw [if_pos hlen] at h
        obtain ⟨rfl, rfl⟩ := Prod.mk.inj (Option.some.inj h)
        have hev : s.Evaluates u false := ⟨1, evalStep_of_lt hu hq hlen⟩
        refine ⟨hev, memo_setQuery hi hu rfl (fun b hb => by simp [settled, hu, hq, hstale] at hb)
          (fun _ _ => Or.inl ⟨hlen, rfl⟩) (fun e he hef => hi.coherent.endorsement u q hu e he hef)
          (fun b hb => by simp [settled, hq] at hb; subst hb; exact hev), by simp [settled, hq],
          fun w hw => hframe _ w hw ▸ .refl s u⟩
      rw [if_neg hlen, List.range_eq_range'] at h
      simp only [Option.bind_eq_bind, Option.bind_eq_some] at h
      obtain ⟨⟨valid', s1⟩, hloop, hres⟩ := h
      obtain ⟨rfl, rfl⟩ := Prod.mk.inj (Option.some.inj hres)
      obtain ⟨hm, ⟨qi', hu1, hl1, hv1⟩, hfr⟩ := endorsementsLoop_memo (isApplicable_memo n) hq
        hstale q.endorsements.length 0 0 s q (by simp) hi hu ⟨rfl, rfl, by simp⟩ (by omega)
        (by simp) valid' s1 hloop
      have hstu : qi'.state = .pending := (QueryInfo.state_eq_of_erase hl1.1).trans hq
      have hall := hl1.fresh_of_done
      have hev : s1.Evaluates u (decide (s.threshold ≤ (valid' : Int))) := by
        rw [hv1, hm.same.threshold]
        exact evaluates_of_justified hu1 hstu
          (fun e he => hm.inv.coherent.endorsement u qi' hu1 e he (hall e he))
          (fun c _ b hb => hm.inv.sound c b hb)
      rw [endorsementsOf_of_eq hu1]
      refine ⟨hm.same.evaluates.mpr hev, hm.trans (memo_setQuery hm.inv hu1 (hl1.erase_writeBack _)
        (fun b hb => by simp [settled, hu1, hstu, hl1.2.1, hstale] at hb)
        (fun _ _ => Or.inr ⟨hall, by rw [← hm.same.threshold, ← hv1]; rfl⟩)
        (fun e he hef => hm.inv.coherent.endorsement u qi' hu1 e he hef)
        (fun b hb => by simp [settled, hq] at hb; subst hb; exact hev)), by simp [settled, hq],
        fun w hw => ?_⟩
      by_cases hwu : w = u
      · exact hwu ▸ .refl s u
      · simp only [setQuery_queries, hwu, if_false] at hw
        exact hfr w hw

end

/-! ### Calls that return -/

section

variable {k : Nat}

/-- The condition loop returns once the evaluation at stage `k` determines it. -/
theorem conditionsValid_returns
    (ihk : ∀ s c, s.CacheInv → (s.evalStage k c).isSome → ∃ n r, isApplicable n s c = some r) :
    ∀ (cs : List String) (s : QueryStore), s.CacheInv → (condsValid (s.evalStage k) cs).isSome →
      ∃ n r, conditionsValid (isApplicable n) s cs = some r
  | [], _, _, _ => ⟨0, _, rfl⟩
  | c :: cs, s, hi, h => by
    obtain ⟨b, hb⟩ : ∃ b, s.evalStage k c = some b := by
      cases hc : s.evalStage k c <;> simp_all [condsValid]
    obtain ⟨n1, ⟨v, s1⟩, h1⟩ := ihk s c hi (by simp [hb])
    obtain ⟨hev, hm, -⟩ := isApplicable_memo n1 s c v s1 hi h1
    obtain rfl : v = b := hev.unique ⟨k, hb⟩
    cases v
    · rw [condsValid_cons_of_false hb, hm.same.evalStage_eq] at h
      obtain ⟨n2, r, h2⟩ := conditionsValid_returns ihk cs s1 hm.inv h
      refine ⟨n1 + n2, r, ?_⟩
      rw [conditionsValid_cons (isApplicable_le (Nat.le_add_right n1 n2) h1)]
      exact conditionsValid_mono (fun _ _ _ h => isApplicable_le (Nat.le_add_left n2 n1) h) s1 cs r h2
    · exact ⟨n1, _, by rw [conditionsValid_cons h1]; rfl⟩

/-- The endorsement loop of `isApplicable u` returns once the evaluation at stage `k` determines the
validity of every endorsement of `u`. -/
theorem endorsementsLoop_returns
    (ihk : ∀ s c, s.CacheInv → (s.evalStage k c).isSome → ∃ n r, isApplicable n s c = some r)
    {u : String} {q : QueryInfo} (hq : q.state = .pending)
    (hstale : q.cached.fresh = false) {s₀ : QueryStore} {N : Nat}
    (hN : countValid (s₀.evalStage k) q.endorsements = some N) :
    ∀ m j valid s qi, j + m = q.endorsements.length → s.CacheInv → s₀.SameContent s →
      s.queries u = some qi → LoopEntry q j qi → s.threshold ≤ (q.endorsements.length : Int) →
      ∃ n r, endorsementsLoop (isApplicable n) u (List.range' j m) valid s = some r := by
  intro m
  induction m with
  | zero => exact fun _ _ _ _ _ _ _ _ _ _ => ⟨0, _, rfl⟩
  | succ m ihm =>
    intro j valid s qi hk hi hs hu hl hlen
    obtain ⟨e, he⟩ : ∃ e, qi.endorsements[j]? = some e :=
      ⟨_, List.getElem?_eq_getElem (by rw [length_eq_of_erase hl.1]; omega)⟩
    simp only [List.range'_succ, endorsementsLoop, endorsementsOf_of_eq hu, he]
    split
    · rename_i hfresh
      exact ihm (j + 1) _ s qi (by omega) hi hs hu (hl.succ_of_fresh he hfresh) hlen
    have hqi : countValid (s.evalStage k) qi.endorsements = some N := by
      rw [← hs.evalStage_eq, ← countValid_map_erase, QueryInfo.map_erase_of_erase hl.1,
        countValid_map_erase, hN]
    obtain ⟨r, hr⟩ := condsValid_of_countValid hqi e (List.mem_iff_getElem?.mpr ⟨j, he⟩)
    obtain ⟨n1, ⟨ok, sc⟩, hc⟩ :=
      conditionsValid_returns ihk e.endorsement.conditions s hi (by simp [hr])
    obtain ⟨qi2, hu2, hl2, -, hm, -⟩ :=
      loopStep_memo (isApplicable_memo n1) hq hstale hi hu hl hlen he hc
    obtain ⟨n2, r, h2⟩ := ihm (j + 1) (if ok then valid + 1 else valid) _ qi2 (by omega) hm.inv
      (hs.trans hm.same) hu2 hl2 (by rwa [← hm.same.threshold])
    refine ⟨n1 + n2, r, ?_⟩
    rw [conditionsValid_mono (fun _ _ _ h => isApplicable_le (Nat.le_add_right n1 n2) h) s _ _ hc]
    exact endorsementsLoop_mono (fun _ _ _ h => isApplicable_le (Nat.le_add_left n2 n1) h) u _ _ _
      r h2

end

/-- A call returns, with enough fuel, on every query the evaluation determines. -/
theorem isApplicable_returns :
    ∀ k s u, s.CacheInv → (s.evalStage k u).isSome → ∃ n r, isApplicable n s u = some r
  | 0, _, _, _, h => by simp [evalStage] at h
  | k + 1, s, u, hi, h => by
    have hone : (isApplicable 1 s u).isSome → ∃ n r, isApplicable n s u = some r :=
      fun h1 => ⟨1, _, (Option.some_get h1).symm⟩
    cases hu : s.queries u with
    | none => exact hone (by simp [isApplicable, hu])
    | some q =>
      cases hst : q.state
      case dropped => exact hone (by simp [isApplicable, hu, hst])
      case committed => exact hone (by simp [isApplicable, hu, hst])
      case pending =>
      by_cases hfresh : q.cached.fresh = true
      · exact hone (by simp [isApplicable, hu, hst, hfresh])
      by_cases hlen : (q.endorsements.length : Int) < s.threshold
      · exact hone (by simp [isApplicable, hu, hst, hfresh, hlen])
      obtain ⟨N, hN⟩ : ∃ N, countValid (s.evalStage k) q.endorsements = some N := by
        simp only [evalStage, evalStep, hu, hst, hlen, if_false, Option.isSome_map'] at h
        exact Option.isSome_iff_exists.mp h
      obtain ⟨n, r, hr⟩ := endorsementsLoop_returns (isApplicable_returns k) hst
        (by simpa using hfresh) hN q.endorsements.length 0 0 s q (by simp) hi (.refl s) hu
        ⟨rfl, rfl, by simp⟩ (by omega)
      refine ⟨n + 1, ?_⟩
      simp only [isApplicable, hu, hst, hfresh, hlen, if_false, reduceCtorEq,
        List.range_eq_range', hr, Option.bind_eq_bind, Option.some_bind]
      exact ⟨_, rfl⟩

/-- With the cache invariant, `isApplicable` returns exactly the values of the evaluation without
cache. -/
theorem isApplicable_iff_evaluates {s : QueryStore} (hi : s.CacheInv) (u : String) (b : Bool) :
    (∃ n s', isApplicable n s u = some (b, s')) ↔ s.Evaluates u b := by
  constructor
  · rintro ⟨n, s', h⟩
    exact (isApplicable_memo n s u b s' hi h).1
  · rintro ⟨k, hk⟩
    obtain ⟨n, ⟨v, s'⟩, h⟩ := isApplicable_returns k s u hi (by simp [hk])
    obtain rfl : v = b := (isApplicable_memo n s u v s' hi h).1.unique ⟨k, hk⟩
    exact ⟨n, s', h⟩

end QueryStore

end PnyxDB.Consensus
