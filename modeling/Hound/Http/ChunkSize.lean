import Hound.Http.Safety

/-!
# Size lines

What `parse_chunked_body` takes for the size of a chunk. `sizeTurn` is the turn of its
loop that reads a size line, `lineSize` the number that the line itself gives.
`strtoul` starts at the line and is not told where it ends (`strtoul_line`), and a line
that gives no number is no error: `decodes_line_iff` says for which lines the two agree.
-/

namespace Hound

def hexRun (s : Bytes) : Bytes := s.takeWhile (isDigit 16)

/-- The number the first hex digits of a line denote, when there are some and a `size_t`
holds it. -/
def lineSize (line : Bytes) : Option Nat :=
  if hexRun line = [] ∨ sizeMod ≤ digitsVal 16 (hexRun line) then none
  else some (digitsVal 16 (hexRun line))

/-- A line with a size, and no `0x` in front of another number. -/
structure PlainLine (line : Bytes) : Prop where
  sized : lineSize line ≠ none
  prefixed : skipHexPrefix line ≠ line → digitsVal 16 (hexRun (skipHexPrefix line)) = 0

/-! ## `strtoul` on a line -/

section Scan

variable {line : Bytes} {n : Nat}

theorem lineSize_eq_some : lineSize line = some n ↔
    hexRun line ≠ [] ∧ digitsVal 16 (hexRun line) < sizeMod ∧ digitsVal 16 (hexRun line) = n := by
  unfold lineSize
  split
  · next h =>
    exact ⟨nofun, fun ⟨hne, hlt, _⟩ => (h.elim hne (Nat.not_le.mpr hlt)).elim⟩
  · next h =>
    rw [not_or, Nat.not_le] at h
    rw [Option.some.injEq]
    exact ⟨fun he => ⟨h.1, h.2, he⟩, fun ⟨_, _, he⟩ => he⟩

theorem scanDigits_run {c : Byte} (hc : isDigit 16 c = false) (mem : Bytes) :
    ∀ line : Bytes, scanDigits 16 (line ++ c :: mem) = some (hexRun line)
  | [] => by simp [scanDigits, hexRun, hc]
  | b :: line => by
    have ih := scanDigits_run hc mem line
    unfold hexRun at ih ⊢
    rw [List.cons_append, scanDigits, ih, List.takeWhile_cons]
    split <;> rfl

theorem skipHexPrefix_line (hne : line ≠ []) (mem : Bytes) :
    skipHexPrefix (line ++ CR :: mem) = skipHexPrefix line ++ CR :: mem := by
  match line with
  | [b] => rw [skipHexPrefix_singleton]; exact skipHexPrefix_of_ne mem (by decide)
  | b :: c :: line =>
    unfold skipHexPrefix
    simp only [List.cons_append]
    split <;> simp_all

theorem digitsVal_prefixed (h : skipHexPrefix line ≠ line) : digitsVal 16 (hexRun line) = 0 := by
  unfold skipHexPrefix at h
  split at h
  · rfl
  · rfl
  · exact absurd rfl h

/-- The number `strtoul` reads where a line with a digit in front starts. -/
theorem strtoul_line (h : hexRun line ≠ []) (mem : Bytes) :
    strtoul (line ++ CR :: mem) 16 =
      some (ulongOf false (digitsVal 16 (hexRun (skipHexPrefix line)))) := by
  obtain ⟨d, t, rfl⟩ : ∃ d t, line = d :: t :=
    List.exists_cons_of_ne_nil fun he => h (by rw [he]; rfl)
  have hd : isDigit 16 d = true := by
    by_contra hd
    exact h (by simp [hexRun, hd])
  have hlow : 48 ≤ d := le_of_isDigit (by decide) hd
  have hsign : d ≠ 45 ∧ d ≠ 43 := by constructor <;> rintro rfl <;> revert hlow <;> decide
  have hspace : (d :: t ++ CR :: mem).dropWhile isSpace = d :: (t ++ CR :: mem) := by
    rw [List.cons_append, List.dropWhile_cons, not_isSpace_of_le hlow]
    rfl
  have hskip := skipHexPrefix_line (List.cons_ne_nil d t) mem
  rw [strtoul, hspace]
  simp only [hsign.1, hsign.2, or_self, if_false, if_true, decide_false]
  rw [← List.cons_append, hskip, scanDigits_run (by decide) mem, Option.map_some]

theorem ulongOf_of_lt (h : n < sizeMod) : ulongOf false n = n := by
  rw [ulongOf, if_neg (Nat.not_le.mpr h), if_neg (by decide)]

theorem ulongOf_eq_zero : ulongOf false n = 0 ↔ n = 0 := by
  unfold ulongOf sizeMod
  split
  · omega
  · simp

end Scan

namespace Http

open Lib Lib.Consumer

namespace HttpParser

/-- The turn of the loop at a size line that ends at offset `lineLen`. -/
def sizeTurn (p : HttpParser) (w beyond : Bytes) (lineLen : Nat) :
    Except Fault (HttpParser × Nat) :=
  match strtoul (w ++ beyond) 16 with
  | none => .error .outOfBounds
  | some size =>
    if size = 0 then
      .ok ({ p with
        chunkSize := 0, state := .done
        request := { p.request with body := p.tempBody } }, lineLen + 2)
    else .ok ({ p with chunkSize := size, readingChunkSize := false }, lineLen + 2)

/-- The parser after a size line for a chunk of size `n`; 0 is the last chunk. -/
def sized (p : HttpParser) (n : Nat) : HttpParser :=
  if n = 0 then { p.completed with chunkSize := 0 }
  else { p with chunkSize := n, readingChunkSize := false }

@[simp] theorem sized_chunkSize (p : HttpParser) (n : Nat) : (p.sized n).chunkSize = n := by
  unfold sized
  split
  · next h => exact h.symm
  · rfl

/-- The line ending at offset `i` of `w` decides alone: the parser takes its size, and
fails when it has none. -/
def DecodesLine (p : HttpParser) (w beyond : Bytes) (i : Nat) : Prop :=
  match lineSize (w.take i) with
  | some n => p.sizeTurn w beyond i = .ok (p.sized n, i + 2)
  | none => ∃ q c, p.sizeTurn w beyond i = .ok (q, c) ∧ q.state = .error

variable {p : HttpParser} {w beyond : Bytes} {i n : Nat}

theorem sizeTurn_of_some (h : strtoul (w ++ beyond) 16 = some n) (i : Nat) :
    p.sizeTurn w beyond i = .ok (p.sized n, i + 2) := by
  unfold sizeTurn sized
  rw [h]
  by_cases hn : n = 0
  · subst hn; rfl
  · simp only [hn, if_false]

/-- The whole call is that turn, and more turns on what follows the line unless the
chunk is the last. -/
theorem parseChunkedBody_turn (hr : p.readingChunkSize = true) (hf : findCrlf w = some i)
    (beyond : Bytes) :
    p.parseChunkedBody w beyond = (p.sizeTurn w beyond i).bind fun r =>
      if r.1.readingChunkSize then .ok r
      else (r.1.parseChunkedBody (w.drop r.2) beyond).map (shift r.2) := by
  cases hs : strtoul (w ++ beyond) 16 with
  | none =>
    rw [parseChunkedBody_off hr hf hs, sizeTurn, hs]
    rfl
  | some n =>
    rw [sizeTurn_of_some hs]
    by_cases hn : n = 0
    · subst hn
      rw [parseChunkedBody_last hr hf hs]
      exact (if_pos hr).symm
    · rw [parseChunkedBody_size hr hf hs hn]
      simp [sized, hn, Except.bind]

theorem sizeTurn_state (hs : p.state = .chunkedBody) {q : HttpParser} {c : Nat}
    (h : p.sizeTurn w beyond i = .ok (q, c)) : q.state ≠ .error := by
  unfold sizeTurn at h
  split at h
  · cases h
  · split at h
    · cases h; exact State.noConfusion
    · cases h; rw [hs]; exact State.noConfusion

/-- **A size line decides alone exactly when it is plain.** In the chunk-size state, for
every window with a line end and whatever memory lies behind it. -/
theorem decodes_line_iff (hs : p.state = .chunkedBody) (hr : p.readingChunkSize = true)
    (hf : findCrlf w = some i) (beyond : Bytes) :
    p.parseChunkedBody w beyond = ((p.sizeTurn w beyond i).bind fun r =>
      if r.1.readingChunkSize then .ok r
      else (r.1.parseChunkedBody (w.drop r.2) beyond).map (shift r.2)) ∧
    (p.DecodesLine w beyond i ↔ PlainLine (w.take i)) := by
  refine ⟨parseChunkedBody_turn hr hf beyond, ?_⟩
  obtain ⟨mem, hmem⟩ : ∃ mem, w ++ beyond = w.take i ++ CR :: mem := by
    have hsplit : w = w.take i ++ CR :: LF :: w.drop (i + 2) := findPair_split hf
    refine ⟨LF :: w.drop (i + 2) ++ beyond, ?_⟩
    conv_lhs => rw [hsplit, List.append_assoc, List.cons_append]
  unfold DecodesLine
  cases hl : lineSize (w.take i) with
  | none =>
    exact ⟨fun ⟨q, c, h, he⟩ => absurd he (sizeTurn_state hs h), fun h => absurd hl h.sized⟩
  | some n =>
    obtain ⟨hne, hlt, hv⟩ := lineSize_eq_some.mp hl
    have hread := strtoul_line hne mem
    rw [← hmem] at hread
    simp only [sizeTurn_of_some hread, Except.ok.injEq, Prod.mk.injEq, and_true]
    by_cases hpre : skipHexPrefix (w.take i) = w.take i
    · rw [hpre, ulongOf_of_lt hlt, hv]
      exact ⟨fun _ => ⟨by simp [hl], fun h => absurd hpre h⟩, fun _ => rfl⟩
    · rw [digitsVal_prefixed hpre] at hv
      subst hv
      constructor
      · intro h
        have h0 := congrArg HttpParser.chunkSize h
        rw [sized_chunkSize, sized_chunkSize] at h0
        exact ⟨by simp [hl], fun _ => ulongOf_eq_zero.mp h0⟩
      · intro h
        rw [h.prefixed hpre]
        rfl

def awaiting : HttpParser := { state := .chunkedBody, chunked := true }

/-- A line `1a`, and `0x` in front of a zero. -/
theorem decodes_line_1a :
    awaiting.parseChunkedBody (bytes "1a\r\n") [] = ((awaiting.sizeTurn (bytes "1a\r\n") [] 2).bind
      fun r => if r.1.readingChunkSize then .ok r
        else (r.1.parseChunkedBody ((bytes "1a\r\n").drop r.2) []).map (shift r.2)) ∧
    (awaiting.DecodesLine (bytes "1a\r\n") [] 2 ↔ PlainLine (bytes "1a")) :=
  decodes_line_iff rfl rfl (by decide) []

/-- An empty size line is no error: the size 5 comes from the line after it. -/
theorem empty_line_reads_on :
    findCrlf (bytes "\r\n5\r\nhello\r\n") = some 0 ∧
    awaiting.sizeTurn (bytes "\r\n5\r\nhello\r\n") [] 0 = .ok (awaiting.sized 5, 2) ∧
    ¬ awaiting.DecodesLine (bytes "\r\n5\r\nhello\r\n") [] 0 := by
  refine ⟨by decide, sizeTurn_of_some (by decide) 0, ?_⟩
  rintro ⟨q, c, h, he⟩
  exact sizeTurn_state rfl h he

end HttpParser

end Http

end Hound
