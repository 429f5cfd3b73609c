import PnyxDB.Consensus.QueryStore.Evaluation

/-!
What one operation of the store guarantees (`Effect`): the store stays well keyed and finite, the
condition graph only grows, and the cache invariant `CacheInv` is kept, on every store, cyclic
condition graphs included. Effects compose (`Effect.trans`), and an operation that rewrites one
entry and cascades from it has one (`CascadeBase.effect`).
-/

namespace PnyxDB.Consensus

namespace QueryStore

/-- The invariant of the cache: coherent, with a complete dependency index, and sound. -/
structure CacheInv (s : QueryStore) : Prop where
  coherent : s.Coherent
  indexComplete : s.IndexComplete
  sound : s.Sound

/-- What an operation that takes `s` to `s'` guarantees on every store. -/
structure Frame (s s' : QueryStore) : Prop where
  wellKeyed : s'.WellKeyed
  keys : ∀ keys, s.KeysIn keys → ∃ keys', s'.KeysIn keys'
  grows : ∀ d c, s.DependsOn d c → s'.DependsOn d c

/-- The guarantees of an operation that takes `s` to `s'`. -/
structure Effect (s s' : QueryStore) extends Frame s s' : Prop where
  cache : s.CacheInv → s'.CacheInv

theorem acyclic_of_grows {s s' : QueryStore} (h : ∀ d c, s.DependsOn d c → s'.DependsOn d c)
    (hac : s'.Acyclic) : s.Acyclic :=
  fun u hu => hac u (Relation.TransGen.mono h hu)

theorem SameContent.keysIn {s s' : QueryStore} (h : s.SameContent s') {keys : List String}
    (hk : s.KeysIn keys) : s'.KeysIn keys :=
  fun u hu => hk u (by cases hs : s.queries u <;> simp_all [h.none_iff])

theorem Frame.trans {s s' s'' : QueryStore} (h : Frame s s') (h' : Frame s' s'') :
    Frame s s'' where
  wellKeyed := h'.wellKeyed
  keys keys hk := let ⟨k1, hk1⟩ := h.keys keys hk; h'.keys k1 hk1
  grows d c hdc := h'.grows d c (h.grows d c hdc)

namespace Effect

variable {s s' s'' : QueryStore}

theorem trans (h : Effect s s') (h' : Effect s' s'') : Effect s s'' where
  toFrame := h.toFrame.trans h'.toFrame
  cache hi := h'.cache (h.cache hi)

/-- An operation that keeps the content has an effect as soon as it keeps the cache coherent and
sound. -/
theorem of_sameContent (hs : s.SameContent s') (hw : s.WellKeyed)
    (hc : s.CacheInv → s'.Coherent ∧ s'.Sound) : Effect s s' where
  wellKeyed := hs.wellKeyed hw
  keys keys hk := ⟨keys, hs.keysIn hk⟩
  grows _ _ := hs.dependsOn
  cache hi := ⟨(hc hi).1, hs.indexComplete hi.indexComplete, (hc hi).2⟩

theorem refl (hw : s.WellKeyed) : Effect s s :=
  of_sameContent (.refl s) hw fun hi => ⟨hi.coherent, hi.sound⟩

/-- An operation that touches neither the query map nor the index has an effect. -/
theorem of_eq (hw : s.WellKeyed) (hq : s'.queries = s.queries)
    (hp : s'.pendingDependencies = s.pendingDependencies) (ht : s'.threshold = s.threshold) :
    Effect s s' where
  wellKeyed u qi hu := hw u qi (hq ▸ hu)
  keys keys hk := ⟨keys, fun u hu => hk u (hq ▸ hu)⟩
  grows d c := by simp [DependsOn, hq]
  cache hi := ⟨(Decays.of_eq hq hp ht).coherent hi.coherent, fun d c hdc hne => by
    have := hi.indexComplete d c (by simpa [DependsOn, hq] using hdc) hne
    unfold Indexed at this ⊢
    rwa [hq, hp], (Decays.of_eq hq hp ht).sound hi.coherent hi.sound⟩

end Effect

/-- The store `b` an operation on `s` cascades from at `x`: prepared, well keyed, with one more key
at most, a larger condition graph, and a complete index. -/
structure CascadeBase (s b : QueryStore) (x : String) : Prop where
  prepared : Prepared s b x
  wellKeyed : b.WellKeyed
  keys : ∀ keys, s.KeysIn keys → b.KeysIn (x :: keys)
  grows : ∀ d c, s.DependsOn d c → b.DependsOn d c
  indexComplete : s.IndexComplete → b.IndexComplete

theorem CascadeBase.effect {s b s' : QueryStore} {x : String} (hb : CascadeBase s b x)
    (hc : Cascaded b s' x) : Effect s s' where
  wellKeyed := hc.marked.same.wellKeyed hb.wellKeyed
  keys keys hk := ⟨x :: keys, hc.marked.same.keysIn (hb.keys keys hk)⟩
  grows d c hdc := hc.marked.same.dependsOn (hb.grows d c hdc)
  cache hi := ⟨(hb.prepared.decays hc).coherent hi.coherent,
    hc.marked.same.indexComplete (hb.indexComplete hi.indexComplete),
    (hb.prepared.decays hc).sound hi.coherent hi.sound⟩

/-- A cascade from a `CascadeBase` has an effect. -/
theorem cascadeMark_effect {s b s' : QueryStore} {qi : QueryInfo} {n : Nat}
    (hb : CascadeBase s (b.setQuery qi.uuid qi) qi.uuid) (hw : b.WellKeyed)
    (h : cascadeMark n b qi = some s') : Effect s s' :=
  hb.effect (cascadeMark_spec n b qi s' hw h)

end QueryStore

end PnyxDB.Consensus
