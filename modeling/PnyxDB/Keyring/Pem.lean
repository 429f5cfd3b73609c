import PnyxDB.Keyring.Basic
import Mathlib.Data.List.DropRight

/-!
`encoding/pem` of the Go standard library, as `MarshalBinary` and `UnmarshalBinary` use it, on text
as a list of characters: every delimiter `pem` looks for is ASCII, so a character stands for a byte.
`EncodeToMemory` writes a block as its `BEGIN` line, a line `key: value` per header, a blank line
after the headers, the base64 of its bytes in lines of 64 characters, and its `END` line. `Decode`
reads a header line back by cutting it at its first colon and trimming the white space around both
halves (`bytes.TrimSpace`). Base64 is a parameter (`Base64`).

* `decode_encodeToMemory` — `Decode` reads back the block `EncodeToMemory` wrote, and gives the text
  that follows it, for every block whose type and header entries are single lines and whose type
  and header keys hold no colon; each header key and value comes back trimmed
  (`PemBlock.trimHeaders`). A header value with white space around it does not come back.
-/

namespace PnyxDB.Keyring

open PnyxDB.Consensus (Bytes)

/-- `base64.StdEncoding`: `encode` writes the base64 text of some bytes, `decode` reads such a text
back, or fails. -/
structure Base64 where
  encode : Bytes → List Char
  decode : List Char → Option Bytes

/-- A base64 codec reads back what it writes, and writes only letters, digits, `+`, `/` and `=`. -/
def Base64.Exact (b64 : Base64) : Prop :=
  ∀ bytes, b64.decode (b64.encode bytes) = some bytes ∧
    ∀ c ∈ b64.encode bytes, c.isAlphanum ∨ c = '+' ∨ c = '/' ∨ c = '='

/-- The value at `key` of the Go map built by inserting `entries` in order: the last one. -/
def mapValue {α : Type} (entries : List (String × α)) (key : String) : Option α :=
  entries.reverse.lookup key

/-- `Headers[key]`. -/
def PemBlock.header (b : PemBlock) (key : String) : Option String := mapValue b.headers key

namespace Pem

/-! ### Lines and white space -/

/-- `unicode.IsSpace`. -/
def isSpace (c : Char) : Bool :=
  decide (c.toNat ∈ [0x09, 0x0A, 0x0B, 0x0C, 0x0D, 0x20, 0x85, 0xA0, 0x1680, 0x2028, 0x2029,
    0x202F, 0x205F, 0x3000] ∨ 0x2000 ≤ c.toNat ∧ c.toNat ≤ 0x200A)

/-- `bytes.TrimSpace`. -/
def trimSpace (s : List Char) : List Char := (s.dropWhile isSpace).rdropWhile isSpace

/-- The spaces and tabs that `getLine` trims and `removeSpacesAndTabs` removes. -/
def isBlank (c : Char) : Bool := c == ' ' || c == '\t'

/-- A line that ends in a newline, as `getLine` returns it: without the carriage return before the
newline, then without its trailing spaces and tabs. -/
def trimLine (line : List Char) : List Char :=
  (if line.getLast? = some '\r' then line.dropLast else line).rdropWhile isBlank

/-- `getLine(data)`: the first line of `data`, and the text after its newline. -/
def getLine (data : List Char) : List Char × List Char :=
  match data.span (· != '\n') with
  | (line, []) => (line.rdropWhile isBlank, [])
  | (line, _ :: rest) => (trimLine line, rest)

/-- `bytes.Cut(s, sep)`: the text before the first `sep` in `s`, and the text after it. -/
def cut (sep : List Char) : List Char → Option (List Char × List Char)
  | [] => if sep = [] then some ([], []) else none
  | c :: s =>
    if sep.isPrefixOf (c :: s) then some ([], (c :: s).drop sep.length)
    else (cut sep s).map fun r => (c :: r.1, r.2)

def pemStart : List Char := "\n-----BEGIN ".toList
def pemEnd : List Char := "\n-----END ".toList
def pemEndOfLine : List Char := "-----".toList
def pemLineLength : Nat := 64

/-! ### `EncodeToMemory` -/

/-- `writeHeader(out, k, v)`. -/
def writeHeader (h : String × String) : List Char := h.1.toList ++ ':' :: ' ' :: h.2.toList ++ ['\n']

/-- The `lineBreaker` base64 writes through: a newline after every 64 characters, and one after the
last line if it is not full; `col` characters of the current line are written. -/
def lineBreak : Nat → List Char → List Char
  | col, [] => if col = 0 then [] else ['\n']
  | col, c :: cs =>
    if col + 1 = pemLineLength then c :: '\n' :: lineBreak 0 cs else c :: lineBreak (col + 1) cs

/-- `pem.EncodeToMemory(b)`: nothing when a header key holds a colon, for which `Encode` fails. -/
def encodeToMemory (b64 : Base64) (b : PemBlock) : List Char :=
  if b.headers.any fun h => decide (':' ∈ h.1.toList) then []
  else pemStart.tail ++ b.type.toList ++ pemEndOfLine ++ ['\n'] ++
    (if b.headers = [] then [] else b.headers.flatMap writeHeader ++ ['\n']) ++
    lineBreak 0 (b64.encode b.bytes) ++
    pemEnd.tail ++ b.type.toList ++ pemEndOfLine ++ ['\n']

/-! ### `Decode` -/

/-- The header loop of `Decode` from `rest`: the header lines up to the first line without a colon,
each cut at its first colon, both halves trimmed, and the text from that line on; `none` when the
text ends first, for which `Decode` returns no block. A line is consumed per iteration, so
`rest.length` iterations suffice. -/
def readHeaders : Nat → List Char → Option (List (String × String) × List Char)
  | 0, _ => none
  | fuel + 1, rest =>
    if rest = [] then none
    else match cut [':'] (getLine rest).1 with
      | none => some ([], rest)
      | some (key, val) =>
        (readHeaders fuel (getLine rest).2).map fun r =>
          ((String.mk (trimSpace key), String.mk (trimSpace val)) :: r.1, r.2)

/-- Where the `END` line starts in `rest`, the text after the headers: the body before it and the
trailer after `-----END `. Right at the start of `rest` if there are no headers and it starts there,
otherwise at the first newline followed by `-----END `. -/
def findEnd (noHeaders : Bool) (rest : List Char) : Option (List Char × List Char) :=
  if noHeaders && pemEnd.tail.isPrefixOf rest then some ([], rest.drop pemEnd.tail.length)
  else cut pemEnd rest

/-- `removeSpacesAndTabs(body)`, without the carriage returns and newlines `base64.Decode` skips:
the base64 text of a block. -/
def base64Data (body : List Char) : List Char :=
  body.filter fun c => !(isBlank c || c == '\r' || c == '\n')

/-- The rest of an iteration of `Decode` after the headers: the `END` line must repeat the type and
end the line, and the body before it must hold base64; the block and the text after its `END` line, or `none` when `Decode` goes on to the next `BEGIN`. -/
def readBody (b64 : Base64) (typeLine : List Char) (headers : List (String × String))
    (rest : List Char) : Option (PemBlock × List Char) :=
  match findEnd headers.isEmpty rest with
  | none => none
  | some (body, endTrailer) =>
    let endTrailerLen := typeLine.length + pemEndOfLine.length
    if endTrailerLen ≤ endTrailer.length ∧ typeLine.isPrefixOf (endTrailer.take endTrailerLen) ∧
        pemEndOfLine.isSuffixOf (endTrailer.take endTrailerLen) ∧
        (getLine (endTrailer.drop endTrailerLen)).1 = [] then
      (b64.decode (base64Data body)).map fun bytes =>
        (⟨String.mk typeLine, headers, bytes⟩, (getLine (rest.drop (body.length + pemEnd.length - 1))).2)
    else none

/-- The loop of `pem.Decode(data)` from `rest`: the first well-formed block and the text after it,
or no block and all of `data`. An iteration consumes at least the `BEGIN` it starts from, so
`data.length` iterations suffice. -/
def decodeLoop (b64 : Base64) (data : List Char) : Nat → List Char → Option PemBlock × List Char
  | 0, _ => (none, data)
  | fuel + 1, rest =>
    match (if pemStart.tail.isPrefixOf rest then some (rest.drop pemStart.tail.length)
        else (cut pemStart rest).map Prod.snd) with
    | none => (none, data)
    | some rest =>
      if pemEndOfLine.isSuffixOf (getLine rest).1 then
        let typeLine := (getLine rest).1.take ((getLine rest).1.length - pemEndOfLine.length)
        match readHeaders (getLine rest).2.length (getLine rest).2 with
        | none => (none, data)
        | some (headers, rest) =>
          match readBody b64 typeLine headers rest with
          | some (block, rest) => (some block, rest)
          | none => decodeLoop b64 data fuel rest
      else decodeLoop b64 data fuel (getLine rest).2

/-- `pem.Decode(data)`. -/
def decode (b64 : Base64) (data : List Char) : Option PemBlock × List Char :=
  decodeLoop b64 data data.length data

end Pem

/-! ### Decoding what was encoded -/

/-- A header entry as `Decode` reads it back: key and value trimmed. -/
def trimEntry (h : String × String) : String × String :=
  (String.mk (Pem.trimSpace h.1.toList), String.mk (Pem.trimSpace h.2.toList))

/-- The block `Decode` reads back: its header entries trimmed. -/
def PemBlock.trimHeaders (b : PemBlock) : PemBlock := { b with headers := b.headers.map trimEntry }

/-- What `Decode` needs to find a block where `EncodeToMemory` wrote it: its type and header entries
are single lines, and its type and header keys hold no colon. -/
structure PemBlock.Readable (b : PemBlock) : Prop where
  type_newline : '\n' ∉ b.type.toList
  type_colon : ':' ∉ b.type.toList
  key_newline : ∀ h ∈ b.headers, '\n' ∉ h.1.toList
  key_colon : ∀ h ∈ b.headers, ':' ∉ h.1.toList
  value_newline : ∀ h ∈ b.headers, '\n' ∉ h.2.toList

namespace Pem

theorem isSpace_of_isBlank {c : Char} (h : isBlank c = true) : isSpace c = true := by
  simp only [isBlank, Bool.or_eq_true, beq_iff_eq] at h
  rcases h with rfl | rfl <;> decide

/-- What `rdropWhile` drops satisfies the predicate. -/
theorem rdropWhile_spec (p : Char → Bool) (l : List Char) :
    ∃ s, l = l.rdropWhile p ++ s ∧ ∀ c ∈ s, p c = true := by
  refine ⟨(l.reverse.takeWhile p).reverse, ?_, fun c hc => ?_⟩
  · rw [List.rdropWhile, ← List.reverse_append, List.takeWhile_append_dropWhile, List.reverse_reverse]
  · exact List.mem_takeWhile_imp (List.mem_reverse.mp hc)

theorem rdropWhile_append_of_forall {p : Char → Bool} (l : List Char) {s : List Char}
    (hs : ∀ c ∈ s, p c = true) : (l ++ s).rdropWhile p = l.rdropWhile p := by
  simp only [List.rdropWhile, List.reverse_append]
  rw [List.dropWhile_append_of_pos fun c hc => hs c (List.mem_reverse.mp hc)]

/-- `trimLine` drops only white space from the end of a line. -/
theorem trimLine_spec (line : List Char) :
    ∃ s, line = trimLine line ++ s ∧ ∀ c ∈ s, isSpace c = true := by
  obtain ⟨s, hs, hsp⟩ := rdropWhile_spec isBlank
    (if line.getLast? = some '\r' then line.dropLast else line)
  unfold trimLine
  split_ifs at hs ⊢ with hr
  · refine ⟨s ++ ['\r'], ?_, fun c hc => ?_⟩
    · rw [← List.append_assoc, ← hs, List.dropLast_append_getLast? _ hr]
    · rcases List.mem_append.mp hc with hc | hc
      · exact isSpace_of_isBlank (hsp c hc)
      · rw [List.mem_singleton.mp hc]
        decide
  · exact ⟨s, hs, fun c hc => isSpace_of_isBlank (hsp c hc)⟩

theorem trimSpace_append_of_forall (l : List Char) {s : List Char}
    (hs : ∀ c ∈ s, isSpace c = true) : trimSpace (l ++ s) = trimSpace l := by
  unfold trimSpace
  rw [List.dropWhile_append]
  split_ifs with h
  · rw [List.isEmpty_iff.mp h, List.dropWhile_eq_nil_iff.mpr hs]
  · exact rdropWhile_append_of_forall _ hs

theorem getLine_append_newline {a : List Char} (ha : '\n' ∉ a) (c : List Char) :
    getLine (a ++ '\n' :: c) = (trimLine a, c) := by
  have hp : ∀ x ∈ a, (x != '\n') = true := fun x hx => by
    simpa using ne_of_mem_of_not_mem hx ha
  simp [getLine, List.span_eq_take_drop, List.takeWhile_append_of_pos hp,
    List.dropWhile_append_of_pos hp]

theorem exists_first_newline : ∀ {x : List Char}, '\n' ∈ x → ∃ a c, x = a ++ '\n' :: c ∧ '\n' ∉ a
  | d :: x, h => by
    by_cases hd : d = '\n'
    · exact ⟨[], x, by rw [hd]; rfl, List.not_mem_nil _⟩
    · obtain ⟨a, c, rfl, ha⟩ := exists_first_newline ((List.mem_cons.mp h).resolve_left (Ne.symm hd))
      exact ⟨d :: a, c, rfl, by simp [Ne.symm hd, ha]⟩

theorem cut_colon_of_not_mem : ∀ {l : List Char}, ':' ∉ l → cut [':'] l = none
  | [], _ => rfl
  | c :: l, h => by
    rw [List.mem_cons, not_or] at h
    simp [cut, cut_colon_of_not_mem h.2, h.1]

theorem cut_colon_append : ∀ {k : List Char}, ':' ∉ k → ∀ v, cut [':'] (k ++ ':' :: v) = some (k, v)
  | [], _, v => by simp [cut]
  | c :: k, h, v => by
    rw [List.mem_cons, not_or] at h
    simp [cut, cut_colon_append h.2, h.1]

/-- A header line reads back as its key and its value, trimmed. -/
theorem header_line {k : List Char} (hk : ':' ∉ k) (v : List Char) :
    ∃ V, cut [':'] (trimLine (k ++ ':' :: ' ' :: v)) = some (k, V) ∧ trimSpace V = trimSpace v := by
  obtain ⟨s, hs, hsp⟩ := trimLine_spec (k ++ ':' :: ' ' :: v)
  have hcolon : ':' ∉ s := fun h => absurd (hsp ':' h) (by decide)
  rcases List.append_eq_append_iff.mp hs.symm with ⟨a', -, ha'⟩ | ⟨c', hL, hc'⟩
  · exact absurd (by rw [ha']; simp) hcolon
  · rcases c' with _ | ⟨x, V⟩
    · rw [List.nil_append] at hc'
      exact absurd (hc' ▸ List.mem_cons_self _ _) hcolon
    · simp only [List.cons_append, List.cons.injEq] at hc'
      obtain ⟨rfl, hV⟩ := hc'
      refine ⟨V, by rw [hL, cut_colon_append hk], ?_⟩
      rw [← trimSpace_append_of_forall V hsp, ← hV]
      simp only [trimSpace, List.dropWhile_cons_of_pos (show isSpace ' ' = true by decide)]

/-- The header loop reads every header line `EncodeToMemory` wrote, and stops at the first line of
`x`, which holds no colon. -/
theorem readHeaders_headerLines {x : List Char} (hx : '\n' ∈ x) (hxc : ':' ∉ x) (y : List Char) :
    ∀ (hs : List (String × String)) (fuel : Nat), (∀ h ∈ hs, ':' ∉ h.1.toList) →
      (∀ h ∈ hs, '\n' ∉ h.1.toList ∧ '\n' ∉ h.2.toList) → hs.length < fuel →
      readHeaders fuel (hs.flatMap writeHeader ++ (x ++ y)) = some (hs.map trimEntry, x ++ y)
  | [], fuel + 1, _, _, _ => by
    obtain ⟨a, c, rfl, ha⟩ := exists_first_newline hx
    obtain ⟨s, hs, -⟩ := trimLine_spec a
    have hline : ':' ∉ trimLine a := fun h =>
      hxc (List.mem_append_left _ (hs ▸ List.mem_append_left s h))
    simp [readHeaders, List.append_assoc, getLine_append_newline ha, cut_colon_of_not_mem hline]
  | (k, v) :: hs, fuel + 1, hkc, hnl, hf => by
    have hk : ':' ∉ k.toList := hkc (k, v) (List.mem_cons_self _ _)
    have hkn : '\n' ∉ k.toList := (hnl (k, v) (List.mem_cons_self _ _)).1
    have hvn : '\n' ∉ v.toList := (hnl (k, v) (List.mem_cons_self _ _)).2
    obtain ⟨V, hcut, hV⟩ := header_line hk v.toList
    have hline : '\n' ∉ k.toList ++ ':' :: ' ' :: v.toList := by
      simp only [List.mem_append, List.mem_cons, not_or]
      exact ⟨hkn, by decide, by decide, hvn⟩
    have ih := readHeaders_headerLines hx hxc y hs fuel (fun h hh => hkc h (List.mem_cons_of_mem _ hh))
      (fun h hh => hnl h (List.mem_cons_of_mem _ hh)) (by simpa using hf)
    have htext : ((k, v) :: hs).flatMap writeHeader ++ (x ++ y) =
        (k.toList ++ ':' :: ' ' :: v.toList) ++ '\n' :: (hs.flatMap writeHeader ++ (x ++ y)) := by
      simp [writeHeader]
    rw [htext, readHeaders, if_neg (by simp), getLine_append_newline hline, hcut]
    simp [ih, trimEntry, hV]

/-! ### The body and the `END` line -/

theorem pemEnd_eq : pemEnd = '\n' :: pemEnd.tail := rfl

/-- A character base64 writes is none of the delimiters `Decode` looks for. -/
theorem base64_char {c : Char} (h : c.isAlphanum ∨ c = '+' ∨ c = '/' ∨ c = '=') :
    c ∉ ['-', ':', '\n', '\r', ' ', '\t'] := by
  intro hm
  simp only [List.mem_cons, List.not_mem_nil, or_false] at hm
  rcases hm with rfl | rfl | rfl | rfl | rfl | rfl <;> revert h <;> decide

theorem keep_of_base64_char {c : Char} (h : c.isAlphanum ∨ c = '+' ∨ c = '/' ∨ c = '=') :
    (!(isBlank c || c == '\r' || c == '\n')) = true := by
  have := base64_char h
  simp only [List.mem_cons, List.not_mem_nil, or_false, not_or] at this
  simp [isBlank, this.2.2.1, this.2.2.2.1, this.2.2.2.2.1, this.2.2.2.2.2]

theorem mem_lineBreak {c : Char} : ∀ {col : Nat} {s : List Char}, c ∈ lineBreak col s → c ∈ s ∨ c = '\n'
  | col, [], h => by
    unfold lineBreak at h
    split_ifs at h <;> simp_all
  | col, d :: s, h => by
    unfold lineBreak at h
    split_ifs at h <;> simp only [List.mem_cons] at h
    · rcases h with rfl | rfl | h
      · exact .inl (List.mem_cons_self _ _)
      · exact .inr rfl
      · exact (mem_lineBreak h).imp_left (List.mem_cons_of_mem _)
    · rcases h with rfl | h
      · exact .inl (List.mem_cons_self _ _)
      · exact (mem_lineBreak h).imp_left (List.mem_cons_of_mem _)

/-- The base64 text comes back from its lines. -/
theorem base64Data_lineBreak : ∀ {col : Nat} {s : List Char},
    (∀ c ∈ s, (!(isBlank c || c == '\r' || c == '\n')) = true) → base64Data (lineBreak col s) = s
  | col, [], _ => by unfold lineBreak; split_ifs <;> rfl
  | col, d :: s, h => by
    have hd := h d (List.mem_cons_self _ _)
    have hs : ∀ c ∈ s, (!(isBlank c || c == '\r' || c == '\n')) = true :=
      fun c hc => h c (List.mem_cons_of_mem _ hc)
    have ih : base64Data (lineBreak 0 s) = s := base64Data_lineBreak hs
    have ih' : base64Data (lineBreak (col + 1) s) = s := base64Data_lineBreak hs
    unfold lineBreak
    split_ifs <;> simp_all [base64Data]

/-- The lines of a nonempty base64 text end in a newline. -/
theorem lineBreak_shape : ∀ (col : Nat) (s : List Char),
    (col = 0 ∧ s = []) ∨ ∃ m, lineBreak col s = m ++ ['\n']
  | col, [] => by
    unfold lineBreak
    split_ifs with h
    · exact .inl ⟨h, rfl⟩
    · exact .inr ⟨[], rfl⟩
  | col, d :: s => by
    unfold lineBreak
    split_ifs
    · rcases lineBreak_shape 0 s with ⟨-, rfl⟩ | ⟨m, hm⟩
      · exact .inr ⟨[d], by simp [lineBreak]⟩
      · exact .inr ⟨d :: '\n' :: m, by rw [hm]; rfl⟩
    · rcases lineBreak_shape (col + 1) s with ⟨h, -⟩ | ⟨m, hm⟩
      · omega
      · exact .inr ⟨d :: m, by rw [hm]; rfl⟩

/-- The text between the headers and the `END` line of a block `EncodeToMemory` writes: the blank
line after the headers, if any, and the lines of base64. -/
def bodyText (b64 : Base64) (noHeaders : Bool) (bytes : Bytes) : List Char :=
  (if noHeaders then [] else ['\n']) ++ lineBreak 0 (b64.encode bytes)

section
variable {b64 : Base64} (hb : b64.Exact)
include hb

theorem mem_bodyText {noHeaders : Bool} {bytes : Bytes} {c : Char} (h : c ∈ bodyText b64 noHeaders bytes) :
    c ≠ '-' ∧ c ≠ ':' := by
  have : c ∈ b64.encode bytes ∨ c = '\n' := by
    unfold bodyText at h
    split_ifs at h <;> simp only [List.nil_append, List.singleton_append, List.mem_cons] at h
    · exact mem_lineBreak h
    · exact h.elim .inr mem_lineBreak
  rcases this with h | rfl
  · have hn := base64_char ((hb bytes).2 c h)
    exact ⟨fun e => hn (by simp [e]), fun e => hn (by simp [e])⟩
  · decide

theorem base64Data_bodyText (noHeaders : Bool) (bytes : Bytes) :
    base64Data (bodyText b64 noHeaders bytes) = b64.encode bytes := by
  have : base64Data (lineBreak 0 (b64.encode bytes)) = b64.encode bytes :=
    base64Data_lineBreak fun c hc => keep_of_base64_char ((hb bytes).2 c hc)
  unfold bodyText
  split_ifs <;> simpa [base64Data] using this

end

theorem cut_pemEnd {T : List Char} : ∀ {m : List Char}, '-' ∉ m →
    cut pemEnd (m ++ (pemEnd ++ T)) = some (m, T)
  | [], _ => by
    rw [List.nil_append, pemEnd_eq, List.cons_append, cut, if_pos, ← List.cons_append, ← pemEnd_eq,
      List.drop_left]
    rw [← List.cons_append, ← pemEnd_eq, List.isPrefixOf_iff_prefix]
    exact List.prefix_append _ _
  | c :: m, h => by
    rw [List.mem_cons, not_or] at h
    have hnp : pemEnd.isPrefixOf (c :: (m ++ (pemEnd ++ T))) = false := by
      rcases m with _ | ⟨d, m⟩
      · simp [pemEnd, List.isPrefixOf_cons₂]
      · have hd : d ≠ '-' := fun hd => h.2 (hd ▸ List.mem_cons_self _ _)
        simp [pemEnd, List.isPrefixOf_cons₂, Ne.symm hd]
    rw [List.cons_append, cut, hnp, if_neg Bool.false_ne_true, cut_pemEnd h.2]
    rfl

/-- The `END` line after a body that `EncodeToMemory` wrote is where `Decode` looks for it. -/
theorem findEnd_body {R : List Char} (hR : '-' ∉ R) (hshape : R = [] ∨ ∃ m, R = m ++ ['\n'])
    {noHeaders : Bool} (hn : R = [] → noHeaders = true) (T : List Char) :
    findEnd noHeaders (R ++ (pemEnd.tail ++ T)) = some (R.dropLast, T) := by
  rcases hshape with rfl | ⟨m, rfl⟩
  · rw [findEnd, hn rfl, if_pos (by simp [List.isPrefixOf_iff_prefix]), List.nil_append, List.drop_left]
    rfl
  · have hne : (noHeaders && pemEnd.tail.isPrefixOf (m ++ ['\n'] ++ (pemEnd.tail ++ T))) = false := by
      rcases m with _ | ⟨d, m⟩
      · simp [pemEnd, List.isPrefixOf_cons₂]
      · have hd : d ≠ '-' := fun hd => hR (hd ▸ List.mem_cons_self _ _)
        simp [pemEnd, List.isPrefixOf_cons₂, Ne.symm hd]
    rw [findEnd, if_neg (by rw [hne]; exact Bool.false_ne_true), List.dropLast_concat, List.append_assoc, List.singleton_append,
      ← List.cons_append, ← pemEnd_eq, cut_pemEnd fun h => hR (List.mem_append_left _ h)]

theorem trimLine_of_getLast {l : List Char} {c : Char} (h : l.getLast? = some c) (hr : c ≠ '\r')
    (hb : isBlank c = false) : trimLine l = l := by
  rw [trimLine, if_neg (by rw [h]; simpa using hr), ← List.dropLast_append_getLast? c h]
  exact List.rdropWhile_concat_neg _ _ _ (by simp [hb])

/-- The `END` line of a block, and the text after it. -/
theorem getLine_endLine {a : List Char} (ha : a = [] ∨ a = [' ']) {t : List Char} (ht : '\n' ∉ t)
    (rest : List Char) : (getLine (a ++ (t ++ pemEndOfLine ++ '\n' :: rest))).2 = rest := by
  rw [← List.append_assoc, ← List.append_assoc, getLine_append_newline]
  rcases ha with rfl | rfl <;> simp [ht, pemEndOfLine]

section
variable {b64 : Base64} (hb : b64.Exact)
include hb

/-- After the headers, `Decode` finds the `END` line `EncodeToMemory` wrote, and the bytes before
it. -/
theorem readBody_bodyText {typeLine : List Char} (ht : '\n' ∉ typeLine)
    (headers : List (String × String)) (bytes : Bytes) (rest : List Char) :
    readBody b64 typeLine headers (bodyText b64 headers.isEmpty bytes ++
      (pemEnd.tail ++ (typeLine ++ pemEndOfLine ++ '\n' :: rest))) =
      some (⟨String.mk typeLine, headers, bytes⟩, rest) := by
  set R := bodyText b64 headers.isEmpty bytes with hRdef
  have hR : '-' ∉ R := fun h => (mem_bodyText hb h).1 rfl
  have hshape : R = [] ∨ ∃ m, R = m ++ ['\n'] := by
    rcases lineBreak_shape 0 (b64.encode bytes) with ⟨-, he⟩ | ⟨m, hm⟩
    · cases hh : headers.isEmpty
      · exact .inr ⟨[], by rw [hRdef, bodyText, hh, he]; rfl⟩
      · exact .inl (by rw [hRdef, bodyText, hh, he]; rfl)
    · exact .inr ⟨(if headers.isEmpty then [] else ['\n']) ++ m, by simp [hRdef, bodyText, hm]⟩
  have hn : R = [] → headers.isEmpty = true := fun h => by
    cases hh : headers.isEmpty
    · simp [hRdef, bodyText, hh] at h
    · rfl
  have hdata : base64Data R.dropLast = b64.encode bytes := by
    rw [← base64Data_bodyText hb headers.isEmpty bytes, ← hRdef]
    rcases hshape with h | ⟨m, h⟩
    · rw [h]; rfl
    · rw [h, List.dropLast_concat, base64Data, base64Data, List.filter_append]
      simp [isBlank]
  have hcheck : (typeLine.length + pemEndOfLine.length ≤ (typeLine ++ pemEndOfLine ++ '\n' :: rest).length ∧
      typeLine.isPrefixOf ((typeLine ++ pemEndOfLine ++ '\n' :: rest).take
        (typeLine.length + pemEndOfLine.length)) = true ∧
      pemEndOfLine.isSuffixOf ((typeLine ++ pemEndOfLine ++ '\n' :: rest).take
        (typeLine.length + pemEndOfLine.length)) = true ∧
      (getLine ((typeLine ++ pemEndOfLine ++ '\n' :: rest).drop
        (typeLine.length + pemEndOfLine.length))).1 = []) := by
    have htake : (typeLine ++ pemEndOfLine ++ '\n' :: rest).take (typeLine.length + pemEndOfLine.length) =
        typeLine ++ pemEndOfLine := List.take_left' (by simp)
    have hdrop : (typeLine ++ pemEndOfLine ++ '\n' :: rest).drop (typeLine.length + pemEndOfLine.length) =
        [] ++ '\n' :: rest := List.drop_left' (by simp)
    refine ⟨by simp, ?_, ?_, ?_⟩
    · rw [htake, List.isPrefixOf_iff_prefix]
      exact List.prefix_append _ _
    · rw [htake, List.isSuffixOf_iff_suffix]
      exact List.suffix_append _ _
    · rw [hdrop, getLine_append_newline (List.not_mem_nil _)]
      rfl
  rw [readBody, findEnd_body hR hshape hn]
  simp only [if_pos hcheck, hdata, (hb bytes).1, Option.map_some']
  congr
  rcases hshape with h | ⟨m, h⟩
  · rw [h, List.dropLast_nil, List.nil_append,
      List.drop_left' (show pemEnd.tail.length = [].length + pemEnd.length - 1 from rfl)]
    exact getLine_endLine (.inl rfl) ht rest
  · rw [h, List.dropLast_concat, List.append_assoc, List.singleton_append, ← List.cons_append,
      ← pemEnd_eq, show m.length + pemEnd.length - 1 = m.length + 9 from rfl, List.drop_append]
    exact getLine_endLine (.inr rfl) ht rest

end

/-! ### The round trip -/

theorem length_flatMap_writeHeader : ∀ hs : List (String × String),
    hs.length ≤ (hs.flatMap writeHeader).length
  | [] => le_refl _
  | h :: hs => by
    have := length_flatMap_writeHeader hs
    simp only [List.flatMap_cons, List.length_append, List.length_cons, writeHeader] at this ⊢
    omega

/-- The `END` line of a block of type `type`. -/
def endLine (type : String) : List Char := pemEnd.tail ++ (type.toList ++ pemEndOfLine ++ ['\n'])

/-- A block `EncodeToMemory` writes, in the pieces `Decode` takes it apart into. -/
theorem encodeToMemory_eq (b64 : Base64) {b : PemBlock} (hk : ∀ h ∈ b.headers, ':' ∉ h.1.toList) :
    encodeToMemory b64 b = pemStart.tail ++ (b.type.toList ++ pemEndOfLine ++ '\n' ::
      (b.headers.flatMap writeHeader ++ (bodyText b64 b.headers.isEmpty b.bytes ++ endLine b.type))) := by
  rw [encodeToMemory, if_neg (by simpa [List.any_eq_false] using hk)]
  cases b.headers <;> simp [bodyText, endLine]

/-- One iteration of `Decode` over a `BEGIN` line, header lines `H` and the text `X` after them. -/
theorem decodeLoop_parts {b64 : Base64} {data T H X rest : List Char} {n : Nat}
    {headers : List (String × String)} {block : PemBlock} (hT : '\n' ∉ T)
    (hH : readHeaders (H ++ (X ++ rest)).length (H ++ (X ++ rest)) = some (headers, X ++ rest))
    (hB : readBody b64 T headers (X ++ rest) = some (block, rest)) :
    decodeLoop b64 data (n + 1) (pemStart.tail ++ (T ++ pemEndOfLine ++ '\n' :: (H ++ (X ++ rest)))) =
      (some block, rest) := by
  have hbegin : pemStart.tail.isPrefixOf (pemStart.tail ++ (T ++ pemEndOfLine ++ '\n' ::
      (H ++ (X ++ rest)))) = true := List.isPrefixOf_iff_prefix.mpr (List.prefix_append _ _)
  have htype : getLine (T ++ pemEndOfLine ++ '\n' :: (H ++ (X ++ rest))) =
      (T ++ pemEndOfLine, H ++ (X ++ rest)) := by
    rw [getLine_append_newline (by simp [hT, pemEndOfLine]),
      trimLine_of_getLast (show (T ++ pemEndOfLine).getLast? = some '-' by
        rw [List.getLast?_append_of_ne_nil _ (by simp [pemEndOfLine])]; rfl) (by decide) (by decide)]
  have htake : (T ++ pemEndOfLine).take ((T ++ pemEndOfLine).length - pemEndOfLine.length) = T :=
    List.take_left' (by simp)
  rw [decodeLoop, if_pos hbegin]
  simp only [List.drop_left, htype, List.isSuffixOf_iff_suffix.mpr (List.suffix_append _ _),
    if_true, htake, hH, hB]

/-- `Decode` reads back the block `EncodeToMemory` wrote, its header entries trimmed, and gives the
text after it. -/
theorem decode_encodeToMemory {b64 : Base64} (hb : b64.Exact) {b : PemBlock} (hr : b.Readable)
    (rest : List Char) : decode b64 (encodeToMemory b64 b ++ rest) = (some b.trimHeaders, rest) := by
  have hx : '\n' ∈ bodyText b64 b.headers.isEmpty b.bytes ++ endLine b.type := by simp [endLine]
  have hxc : ':' ∉ bodyText b64 b.headers.isEmpty b.bytes ++ endLine b.type := by
    intro h
    simp only [endLine, List.mem_append, List.mem_singleton] at h
    rcases h with h | h | (h | h) | h
    · exact (mem_bodyText hb h).2 rfl
    · exact absurd h (by decide)
    · exact hr.type_colon h
    · exact absurd h (by decide)
    · exact absurd h (by decide)
  have hheaders := readHeaders_headerLines hx hxc rest b.headers
    (b.headers.flatMap writeHeader ++ (bodyText b64 b.headers.isEmpty b.bytes ++ endLine b.type ++
      rest)).length hr.key_colon (fun h hh => ⟨hr.key_newline h hh, hr.value_newline h hh⟩) (by
        have := length_flatMap_writeHeader b.headers
        have hX := List.length_pos_of_mem hx
        simp only [List.length_append] at hX ⊢
        omega)
  have hbody : readBody b64 b.type.toList (b.headers.map trimEntry)
      (bodyText b64 b.headers.isEmpty b.bytes ++ endLine b.type ++ rest) =
      some (b.trimHeaders, rest) := by
    have hempty : (b.headers.map trimEntry).isEmpty = b.headers.isEmpty := by cases b.headers <;> rfl
    rw [← hempty, endLine]
    simpa [List.append_assoc] using readBody_bodyText hb hr.type_newline (b.headers.map trimEntry)
      b.bytes rest
  obtain ⟨n, hn⟩ := Nat.exists_eq_succ_of_ne_zero
    (by simp [encodeToMemory_eq b64 hr.key_colon] : (encodeToMemory b64 b ++ rest).length ≠ 0)
  rw [decode, hn, encodeToMemory_eq b64 hr.key_colon]
  simpa only [List.append_assoc, List.cons_append] using
    decodeLoop_parts hr.type_newline hheaders hbody

end Pem

end PnyxDB.Keyring
