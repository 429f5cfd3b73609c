import PnyxDB.Consensus.Structures
import PnyxDB.Network.Protocol

/-!
The hash of a query (`Query.Hash` of `consensus/endorsement.go`): SHA-512 of `proto.Marshal` of the
query with its signature cleared.

The serialized form comes from `consensus/structures.proto` and the protobuf library, neither of
which is part of the sources. What the hash depends on is the layout the serializer follows: each
field other than `requirements` is written by a fixed function of the query (`QueryLayout`, whatever
the generated code fixes), and the map `requirements` as one length-delimited entry per map entry,
in the order the serializer visits the map. In its default mode the serializer visits a Go map in
the map's iteration order, which the run time draws at random: that order is an argument here.

The entries delimit themselves, so the serialized query determines the sequence of entries visited
(`Query.marshal_determines_order`). Two visits of a map of two keys in the two orders therefore give
SHA-512 two different inputs (`hash_input_depends_on_map_order`).
-/

namespace PnyxDB.Consensus

open PnyxDB.Network.Protocol

/-! ### The wire format -/

/-- A length-delimited field (wire type 2) of number `field`: its key, the length of the payload,
then the payload. -/
def lengthDelimited (field : Nat) (payload : Bytes) : Bytes :=
  putUvarint (field * 8 + 2) ++ putUvarint payload.length ++ payload

/-- A proto3 `bytes` field, left out when empty. -/
def bytesField (field : Nat) (b : Bytes) : Bytes :=
  if b = [] then [] else lengthDelimited field b

/-- The bytes of a string: its UTF-8 encoding. -/
def stringBytes (s : String) : Bytes := s.toUTF8.data.toList

/-- Modelled from the spec: the `Version` message, whose only field is `hash`, number 1. -/
def Version.marshal (v : Version) : Bytes := bytesField 1 v.hash

/-- Modelled from the spec: one entry of a map from strings to messages, itself a message whose
field 1 is the key and field 2 the value; the serializer writes both, even when empty. -/
def mapEntry (field : Nat) (kv : String × Version) : Bytes :=
  lengthDelimited field (lengthDelimited 1 (stringBytes kv.1) ++ lengthDelimited 2 kv.2.marshal)

/-- Modelled from the spec: what `structures.proto` fixes about the serialized form of a `Query`,
the number of the field `requirements` and the bytes of the fields before and after it (fields are
written by increasing number). -/
structure QueryLayout where
  requirements : Nat
  before : Query → Bytes
  after : Query → Bytes

/-- `proto.Marshal(q)`, visiting `q.Requirements` in the order `order`. -/
def Query.marshal (layout : QueryLayout) (order : List (String × Version)) (q : Query) : Bytes :=
  layout.before q ++ (order.map (mapEntry layout.requirements)).flatten ++ layout.after q

/-- `q.Hash()`, with `sha512` for `sha512.Sum512` and the map visited in the order `order`. -/
def Query.hash (sha512 : Bytes → Bytes) (layout : QueryLayout) (order : List (String × Version))
    (q : Query) : Bytes :=
  sha512 (Query.marshal layout order { q with signature := [] })

/-! ### The serialized form determines the order of the entries -/

theorem lengthDelimited_ne_nil (field : Nat) (payload : Bytes) :
    lengthDelimited field payload ≠ [] := by
  simp [lengthDelimited, putUvarint_ne_nil]

/-- A length-delimited field is prefix free. -/
theorem lengthDelimited_append_inj {field : Nat} {a b c d : Bytes}
    (h : lengthDelimited field a ++ c = lengthDelimited field b ++ d) : a = b ∧ c = d := by
  simp only [lengthDelimited, List.append_assoc, List.append_cancel_left_eq] at h
  obtain ⟨hlen, h⟩ := putUvarint_append_inj h
  exact List.append_inj h hlen

theorem Version.marshal_inj {v v' : Version} (h : v.marshal = v'.marshal) : v = v' := by
  have hnil : ∀ {p : Bytes}, [] ≠ lengthDelimited 1 p := fun h => lengthDelimited_ne_nil _ _ h.symm
  obtain ⟨b⟩ := v
  obtain ⟨b'⟩ := v'
  simp only [marshal, bytesField] at h
  split_ifs at h with hb hb'
  · rw [hb, hb']
  · exact absurd h hnil
  · exact absurd h.symm hnil
  · simpa using (lengthDelimited_append_inj (c := []) (d := []) (by simpa using h)).1

/-- A map entry is prefix free, and determines the bytes of its key and its value. -/
theorem mapEntry_append_inj {field : Nat} {kv kv' : String × Version} {r r' : Bytes}
    (h : mapEntry field kv ++ r = mapEntry field kv' ++ r') :
    (stringBytes kv.1, kv.2) = (stringBytes kv'.1, kv'.2) ∧ r = r' := by
  obtain ⟨hp, hr⟩ := lengthDelimited_append_inj h
  obtain ⟨hk, hv⟩ := lengthDelimited_append_inj hp
  obtain ⟨hv, -⟩ := lengthDelimited_append_inj (c := []) (d := []) (by simpa using hv)
  rw [hk, Version.marshal_inj hv]
  exact ⟨rfl, hr⟩

theorem flatten_mapEntry_inj {field : Nat} :
    ∀ {o o' : List (String × Version)},
      (o.map (mapEntry field)).flatten = (o'.map (mapEntry field)).flatten →
        o.map (fun kv => (stringBytes kv.1, kv.2)) = o'.map (fun kv => (stringBytes kv.1, kv.2))
  | [], [], _ => rfl
  | [], kv :: _, h => by simp [lengthDelimited_ne_nil, mapEntry] at h
  | kv :: _, [], h => by simp [lengthDelimited_ne_nil, mapEntry] at h
  | kv :: o, kv' :: o', h => by
    simp only [List.map_cons, List.flatten_cons] at h
    obtain ⟨hkv, ho⟩ := mapEntry_append_inj h
    simp only [List.map_cons, List.cons.injEq]
    exact ⟨hkv, flatten_mapEntry_inj ho⟩

/-- The serialized query determines the entries of `requirements` in the order the serializer
visited them, up to the encoding of the keys. -/
theorem Query.marshal_determines_order {layout : QueryLayout} {q : Query}
    {o o' : List (String × Version)} (h : q.marshal layout o = q.marshal layout o') :
    o.map (fun kv => (stringBytes kv.1, kv.2)) = o'.map (fun kv => (stringBytes kv.1, kv.2)) := by
  simp only [Query.marshal, List.append_assoc, List.append_cancel_left_eq] at h
  exact flatten_mapEntry_inj (List.append_cancel_right h)

/-! ### A query of two requirements -/

/-- A query requiring the keys `"x"` and `"y"`, both at `NoVersion`. -/
def twoRequirements : Query :=
  ⟨"q", "a", "none", none, [("x", noVersion), ("y", noVersion)], [], []⟩

/-- Both orders visit the map of `twoRequirements`, and they give SHA-512 two different inputs,
whatever the rest of the layout: the two digests differ unless SHA-512 collides. -/
theorem hash_input_depends_on_map_order (layout : QueryLayout) (sha512 : Bytes → Bytes) :
    [("x", noVersion), ("y", noVersion)].Perm twoRequirements.requirements ∧
    [("y", noVersion), ("x", noVersion)].Perm twoRequirements.requirements ∧
    Query.marshal layout [("x", noVersion), ("y", noVersion)]
        { twoRequirements with signature := [] } ≠
      Query.marshal layout [("y", noVersion), ("x", noVersion)]
        { twoRequirements with signature := [] } ∧
    (twoRequirements.hash sha512 layout [("x", noVersion), ("y", noVersion)] ≠
        twoRequirements.hash sha512 layout [("y", noVersion), ("x", noVersion)] ∨
      ∃ m m', m ≠ m' ∧ sha512 m = sha512 m') := by
  have hne : Query.marshal layout [("x", noVersion), ("y", noVersion)]
      { twoRequirements with signature := [] } ≠
      Query.marshal layout [("y", noVersion), ("x", noVersion)]
      { twoRequirements with signature := [] } := fun h => by
    have := Query.marshal_determines_order h
    simp only [List.map_cons, List.map_nil, List.cons.injEq, Prod.mk.injEq] at this
    exact absurd this.1.1 (by decide)
  refine ⟨List.Perm.refl _, List.Perm.swap _ _ _, hne, ?_⟩
  by_cases hs : twoRequirements.hash sha512 layout [("x", noVersion), ("y", noVersion)] =
    twoRequirements.hash sha512 layout [("y", noVersion), ("x", noVersion)]
  · exact .inr ⟨_, _, hne, hs⟩
  · exact .inl hs

end PnyxDB.Consensus
