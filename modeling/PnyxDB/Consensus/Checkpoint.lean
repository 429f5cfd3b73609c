import PnyxDB.Consensus.Hash
import Mathlib.Data.List.Sort

/-!
The checkpoint identifier of `Engine.handleCheckpoint`: the number of uuids of a `StartCheckpoint`
and the hexadecimal SHA-256 digest of its uuids, sorted and written one after the other. The
identifier keys the cache that deduplicates checkpoints and the BBC instance that decides them.

The uuids are written with no separator, so the identifier determines their number and their
concatenation only (`checkpointId_eq_of_concat`): `["ab", "c"]` and `["a", "bc"]` get one identifier
whatever the hash function, and the second list is taken for a copy of the first
(`checkpointId_conflates`). SHA-256 is a parameter; nothing is assumed of it.
-/

namespace PnyxDB.Consensus

/-- A hexadecimal digit, lower case. -/
def hexDigit (n : Nat) : Char := if n < 10 then Char.ofNat (48 + n) else Char.ofNat (87 + n)

/-- `fmt.Sprintf("%x", b)` of a byte slice: two digits a byte. -/
def hexString (b : Bytes) : String :=
  String.mk (b.flatMap fun x => [hexDigit (x.toNat / 16), hexDigit (x.toNat % 16)])

/-- Go's `<` on strings: their bytes in lexicographic order. -/
def bytesLess : Bytes → Bytes → Bool
  | _, [] => false
  | [], _ :: _ => true
  | x :: xs, y :: ys => x.toNat < y.toNat || x.toNat = y.toNat && bytesLess xs ys

/-- `sort.Strings`: the strings in increasing order. -/
def sortStrings (l : List String) : List String :=
  l.insertionSort fun a b => bytesLess (stringBytes b) (stringBytes a) = false

/-- Go's `<` on strings is asymmetric. -/
theorem bytesLess_asymm : ∀ {x y : Bytes}, bytesLess x y = true → bytesLess y x = false
  | _, [], h => by simp [bytesLess] at h
  | [], _ :: _, _ => rfl
  | a :: xs, b :: ys, h => by
    simp only [bytesLess, Bool.or_eq_true, Bool.and_eq_true, decide_eq_true_eq] at h
    rcases h with h | ⟨h, h'⟩
    · have h1 : ¬b.toNat < a.toNat := by omega
      have h2 : b.toNat ≠ a.toNat := by omega
      simp [bytesLess, h1, h2]
    · simp [bytesLess, h, bytesLess_asymm h']

/-- Go's `<` on strings is cotransitive: `x < z` puts every `y` above `x` or below `z`. -/
theorem bytesLess_cotrans : ∀ {x y z : Bytes},
    bytesLess x z = true → bytesLess x y = true ∨ bytesLess y z = true
  | _, _, [], h => by simp [bytesLess] at h
  | _, [], _ :: _, _ => .inr rfl
  | [], _ :: _, _ :: _, _ => .inl rfl
  | a :: xs, c :: ys, b :: zs, h => by
    simp only [bytesLess, Bool.or_eq_true, Bool.and_eq_true, decide_eq_true_eq] at h ⊢
    rcases h with h | ⟨h, h'⟩
    · by_cases hac : a.toNat < c.toNat
      · exact .inl (.inl hac)
      · exact .inr (.inl (by omega))
    · rcases Nat.lt_trichotomy a.toNat c.toNat with hac | hac | hac
      · exact .inl (.inl hac)
      · exact (bytesLess_cotrans (y := ys) h').imp (fun h'' => .inr ⟨hac, h''⟩)
          fun h'' => .inr ⟨by omega, h''⟩
      · exact .inr (.inl (by omega))

/-- `sortStrings` sorts in Go's order on strings. -/
theorem sortStrings_sorted (l : List String) :
    (sortStrings l).Sorted fun a b => bytesLess (stringBytes b) (stringBytes a) = false := by
  haveI : IsTotal String fun a b => bytesLess (stringBytes b) (stringBytes a) = false :=
    ⟨fun a b => by
      cases h : bytesLess (stringBytes b) (stringBytes a)
      · exact .inl rfl
      · exact .inr (bytesLess_asymm h)⟩
  haveI : IsTrans String fun a b => bytesLess (stringBytes b) (stringBytes a) = false :=
    ⟨fun a b c hab hbc => by
      cases h : bytesLess (stringBytes c) (stringBytes a)
      · rfl
      · rcases bytesLess_cotrans (y := stringBytes b) h with h' | h'
        · simp [h'] at hbc
        · simp [h'] at hab⟩
  exact List.sorted_insertionSort _ l

theorem sortStrings_perm (l : List String) : (sortStrings l).Perm l := List.perm_insertionSort _ l

@[simp] theorem sortStrings_length (l : List String) : (sortStrings l).length = l.length :=
  (sortStrings_perm l).length_eq

/-- The identifier `handleCheckpoint` computes for the uuids `queries`:
`fmt.Sprintf("%d-%x", len(queries), sum)`, where `sum` is the SHA-256 digest of the sorted uuids
written one after the other. -/
def checkpointId (sha256 : Bytes → Bytes) (queries : List String) : String :=
  toString queries.length ++ "-" ++ hexString (sha256 ((sortStrings queries).flatMap stringBytes))

/-- What `handleCheckpoint(sc)` does before the agreement, with `cache` the identifiers of the
checkpoint cache: nothing for an empty list or an identifier the cache holds; otherwise the
identifier enters the cache and a BBC instance of that identifier starts on the sorted uuids, which
the node drops if the instance decides so. Entries leave the cache after 60 s or when the LRU of
1024 entries evicts them; the cache here holds the identifiers seen within that window. -/
def handleCheckpoint (sha256 : Bytes → Bytes) (cache : List String) (queries : List String) :
    List String × Option (String × List String) :=
  if queries = [] then (cache, none)
  else
    let id := checkpointId sha256 queries
    if id ∈ cache then (cache, none) else (id :: cache, some (id, sortStrings queries))

/-- Two lists of as many uuids whose sorted concatenations agree get the same identifier. -/
theorem checkpointId_eq_of_concat {sha256 : Bytes → Bytes} {l1 l2 : List String}
    (hlen : l1.length = l2.length)
    (hcat : (sortStrings l1).flatMap stringBytes = (sortStrings l2).flatMap stringBytes) :
    checkpointId sha256 l1 = checkpointId sha256 l2 := by
  rw [checkpointId, checkpointId, hlen, hcat]

/-- A handled list leaves its identifier in the cache. -/
theorem checkpointId_mem_handleCheckpoint (sha256 : Bytes → Bytes) (cache : List String)
    {queries : List String} (hq : queries ≠ []) :
    checkpointId sha256 queries ∈ (handleCheckpoint sha256 cache queries).1 := by
  simp only [handleCheckpoint, if_neg hq]
  split_ifs with h
  · exact h
  · exact List.mem_cons_self _ _

/-- A list whose identifier the cache holds starts nothing. -/
theorem handleCheckpoint_of_mem {sha256 : Bytes → Bytes} {cache queries : List String}
    (h : checkpointId sha256 queries ∈ cache) : (handleCheckpoint sha256 cache queries).2 = none := by
  simp [handleCheckpoint, h]

/-- `["ab", "c"]` and `["a", "bc"]` are different lists once sorted, yet they get one identifier
for every hash function; after the first, a `StartCheckpoint` of the second starts nothing. -/
theorem checkpointId_conflates (sha256 : Bytes → Bytes) :
    checkpointId sha256 ["ab", "c"] = checkpointId sha256 ["a", "bc"] ∧
      sortStrings ["ab", "c"] ≠ sortStrings ["a", "bc"] ∧
      ∀ cache, (handleCheckpoint sha256 (handleCheckpoint sha256 cache ["ab", "c"]).1
        ["a", "bc"]).2 = none := by
  have hid : checkpointId sha256 ["ab", "c"] = checkpointId sha256 ["a", "bc"] :=
    checkpointId_eq_of_concat rfl (by decide)
  refine ⟨hid, by decide, fun cache => ?_⟩
  have hm : checkpointId sha256 ["ab", "c"] ∈ (handleCheckpoint sha256 cache ["ab", "c"]).1 :=
    checkpointId_mem_handleCheckpoint sha256 cache (by simp)
  exact handleCheckpoint_of_mem (hid ▸ hm)

end PnyxDB.Consensus
