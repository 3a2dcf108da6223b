import Hound.Http.Chunks
import Hound.Lib.Machine

/-!
# Staying inside the window

`StaysInside p w`: the state parser that `dispatch` calls gives the same result
whatever memory lies behind the window `w`, without a fault, consumes at most `w` and
copies only bytes of `w` into the body. Over all states a parser can be in
(`parserMachine`) this fails in one state alone: a chunk size may be too large for
`chunk_size_ + 2` and for `append`, or be a blank that `strtoul` reads on behind.
`SizesFit` says that neither happens; `stays_inside_iff` that nothing else does.
-/

namespace Hound.Http

open Lib Lib.Consumer HttpParser

inductive ParserCall where
  | dispatch (w beyond : Bytes)
  | reset
  | takeRequest

/-- A parser under its calls; a call that faults has no next state. -/
def parserMachine : Machine HttpParser ParserCall where
  init := .new
  step p
    | .dispatch w beyond => (p.dispatch w beyond).toOption.map Prod.fst
    | .reset => some p.reset
    | .takeRequest => some p.takeRequest.2

def StaysInside (p : HttpParser) (w : Bytes) : Prop :=
  ∃ q c d, (∀ beyond, p.dispatch w beyond = .ok (q, c)) ∧ c ≤ w.length ∧
    q.tempBody = p.tempBody ++ d ∧ d.Sublist w

/-- The sizes that a window makes `parse_chunked_body` read, from a size line on or
inside the data of a chunk of size `n`: each number ends inside the window, and the
size of a chunk of which data follows is one that a string can have. -/
inductive SizesFit : Bool → Nat → Bytes → Prop where
  | nil (reading : Bool) (n : Nat) : SizesFit reading n []
  | wait {n : Nat} {w : Bytes} (hf : findCrlf w = none) : SizesFit true n w
  | last {n i : Nat} {w : Bytes} (hf : findCrlf w = some i) (hs : strtoul w 16 = some 0) :
      SizesFit true n w
  | size {n i k : Nat} {w : Bytes} (hf : findCrlf w = some i) (hs : strtoul w 16 = some k)
      (hk : k ≠ 0) (h : SizesFit false k (w.drop (i + 2))) : SizesFit true n w
  | part {n : Nat} {w : Bytes} (hn : n < 2 ^ 64 - 2) (hw : w.length < n + 2) : SizesFit false n w
  | full {n : Nat} {w : Bytes} (hn : n < 2 ^ 64 - 2) (hw : n + 2 ≤ w.length)
      (h : SizesFit true n (w.drop (n + 2))) : SizesFit false n w

def SizesInside (p : HttpParser) (w : Bytes) : Prop :=
  p.state = .chunkedBody → SizesFit p.readingChunkSize p.chunkSize w

variable {p q : HttpParser} {w : Bytes}

/-! ## The states without chunks -/

/-- The header section decides on the request and its framing, and on nothing else. -/
theorem parseHeaders_frame (p : HttpParser) (w : Bytes) :
    ∃ r st len ch, (p.parseHeaders w).1 =
      { p with request := r, state := st, contentLength := len, chunked := ch } := by
  fun_induction parseHeaders p w with
  | case1 p => exact ⟨p.request, p.state, p.contentLength, p.chunked, rfl⟩
  | case2 p w =>
    unfold endOfHeaders
    simp only
    split
    · exact ⟨_, _, _, _, rfl⟩
    · split
      · exact ⟨_, _, _, _, rfl⟩
      · exact ⟨_, _, _, _, rfl⟩
  | case3 p => exact ⟨p.request, p.state, p.contentLength, p.chunked, rfl⟩
  | case4 p w _ _ i hf ih =>
    obtain ⟨r, hr⟩ := headerLine_eq p (w.take i)
    rw [hr] at ih ⊢
    exact ih

theorem plainStep_tempBody (h : p.Inv) (hp : p.plain = true) (w : Bytes) :
    ∃ d, (p.plainStep w).1.tempBody = p.tempBody ++ d ∧ d.Sublist w := by
  rcases plain_cases hp with ⟨-, he⟩ | ⟨-, he⟩ | ⟨-, he⟩
  · refine ⟨[], ?_, List.nil_sublist w⟩
    rw [he, List.append_nil]
    rcases parseRequestLine_cases p w with ⟨-, hr⟩ | ⟨i, -, -, hr⟩ | ⟨i, r, -, -, hr⟩ <;> rw [hr]
  · refine ⟨[], ?_, List.nil_sublist w⟩
    obtain ⟨r, st, len, ch, hr⟩ := parseHeaders_frame p w
    rw [he, List.append_nil, hr]
  · rw [he]
    rcases Nat.lt_or_ge (p.bodyRead + w.length) p.contentLength with hlt | hge
    · rw [h.parseBody_short hlt]; exact ⟨w, rfl, List.Sublist.refl w⟩
    · rw [h.parseBody_full hge]; exact ⟨_, rfl, List.take_sublist _ w⟩

theorem stays_inside_plain (h : p.Inv) (hp : p.plain = true) (w : Bytes) : StaysInside p w := by
  obtain ⟨d, hd, hdw⟩ := plainStep_tempBody h hp w
  exact ⟨_, _, d, dispatch_plain hp w, step_le h hp w, hd, hdw⟩

/-! ## The chunked state -/

theorem dispatch_chunked (hs : p.state = .chunkedBody) (w beyond : Bytes) :
    p.dispatch w beyond = p.parseChunkedBody w beyond := by
  unfold dispatch; rw [hs]

theorem SizesFit.inside {reading : Bool} {n : Nat} (h : SizesFit reading n w) :
    ∀ {p : HttpParser}, p.readingChunkSize = reading → p.chunkSize = n →
      ∃ q c d, (∀ beyond, p.parseChunkedBody w beyond = .ok (q, c)) ∧ c ≤ w.length ∧
        q.tempBody = p.tempBody ++ d ∧ d.Sublist w := by
  induction h with
  | nil =>
    exact fun _ _ => ⟨_, 0, [], parseChunkedBody_nil _, Nat.zero_le _, by simp, List.nil_sublist _⟩
  | wait hf =>
    exact fun hr _ => ⟨_, 0, [], parseChunkedBody_wait hr hf, Nat.zero_le _, by simp,
      List.nil_sublist _⟩
  | last hf hs =>
    exact fun hr _ => ⟨_, _, [], fun beyond => parseChunkedBody_last hr hf (strtoul_more hs beyond),
      findCrlf_le hf, by simp [completed], List.nil_sublist _⟩
  | @size n i k w hf hs hk _ ih =>
    intro p hr _
    obtain ⟨q, c, d, hq, hc, hd, hdw⟩ := ih
      (p := { p with chunkSize := k, readingChunkSize := false }) rfl rfl
    have := findCrlf_le hf
    rw [List.length_drop] at hc
    refine ⟨q, i + 2 + c, d, fun beyond => ?_, by omega, hd, hdw.trans (List.drop_sublist _ w)⟩
    rw [parseChunkedBody_size hr hf (strtoul_more hs beyond) hk, hq]
    rfl
  | part hn hw =>
    rintro p hr rfl
    exact ⟨_, _, _, parseChunkedBody_part hr hn hw, Nat.min_le_left _ _, rfl, List.take_sublist _ _⟩
  | @full n w hn hw _ ih =>
    rintro p hr rfl
    obtain ⟨q, c, d, hq, hc, hd, hdw⟩ := ih (p := { p with
      tempBody := p.tempBody ++ w.take p.chunkSize, readingChunkSize := true }) rfl rfl
    rw [List.length_drop] at hc
    refine ⟨q, p.chunkSize + 2 + c, w.take p.chunkSize ++ d, fun beyond => ?_, by omega, ?_, ?_⟩
    · rw [parseChunkedBody_full hr hn hw, hq]
      rfl
    · rw [hd, List.append_assoc]
    · have hsub := (List.Sublist.refl (w.take p.chunkSize)).append
        (hdw.trans (List.drop_sublist_drop_left w (Nat.le_add_right p.chunkSize 2)))
      rwa [List.take_append_drop] at hsub

/-- With no memory behind the window, a call that succeeds has read sizes that fit. -/
theorem sizesFit_of_ok (hc : p.chunkSize < sizeMod) {a : HttpParser × Nat}
    (h : p.parseChunkedBody w [] = .ok a) : SizesFit p.readingChunkSize p.chunkSize w := by
  refine chunk_induction (motive := fun p w r =>
    (∃ a, r = .ok a) → SizesFit p.readingChunkSize p.chunkSize w)
    ?wait ?off ?last ?size ?overflow ?part ?full hc ⟨a, h⟩
  case wait =>
    rintro p w (rfl | ⟨hr, hf⟩) -
    · exact .nil _ _
    · rw [hr]; exact .wait hf
  case off => rintro _ _ _ _ _ _ ⟨_, h⟩; cases h
  case last =>
    intro p w i hr hf hs _
    rw [List.append_nil] at hs
    rw [hr]; exact .last hf hs
  case size =>
    rintro p w i n (e | b) hr hf hs hn ih ⟨a, ha⟩
    · cases ha
    · rw [List.append_nil] at hs
      rw [hr]; exact .size hf hs hn (ih ⟨b, rfl⟩)
  case overflow => rintro _ _ _ _ _ ⟨_, h⟩; cases h
  case part => intro p w hr _ hn hw _; rw [hr]; exact .part hn hw
  case full =>
    rintro p w (e | b) hr hn hw ih ⟨a, ha⟩
    · cases ha
    · rw [hr]; exact .full hn hw (ih ⟨b, rfl⟩)

/-! ## Every state -/

/-- What every parser satisfies: its counters, and a chunk size that fits `size_t`. -/
structure Sound (p : HttpParser) : Prop where
  inv : p.Inv
  size_lt : p.chunkSize < sizeMod

theorem sound_new : Sound .new := ⟨inv_new, by decide⟩

theorem sound_chunked (h : Sound p) (hs : p.state = .chunkedBody) {beyond : Bytes} {c : Nat}
    (hd : p.parseChunkedBody w beyond = .ok (q, c)) : Sound q := by
  refine chunk_induction (motive := fun p w r =>
    Sound p → p.state = .chunkedBody → ∀ q c, r = .ok (q, c) → Sound q)
    ?wait ?off ?last ?size ?overflow ?part ?full h.size_lt h hs q c hd
  case wait => rintro p w - h - q c ⟨⟩; exact h
  case off => rintro _ _ _ _ _ _ _ _ _ _ h; cases h
  case last =>
    rintro p w i - - - h - q c ⟨⟩
    exact ⟨⟨fun hb => by simp [completed] at hb, h.inv.read_le, h.inv.length_lt⟩,
      Nat.two_pow_pos 64⟩
  case size =>
    rintro p w i n (e | b) - - hst - ih h hs q c hq
    · cases hq
    · cases hq
      refine ih ⟨⟨fun hb => ?_, h.inv.read_le, h.inv.length_lt⟩, strtoul_lt hst⟩ hs b.1 b.2 rfl
      simp [hs] at hb
  case overflow => rintro _ _ _ _ _ _ _ _ _ h; cases h
  case part =>
    rintro p w - - - - h hs q c ⟨⟩
    refine ⟨⟨fun hb => ?_, h.inv.read_le, h.inv.length_lt⟩,
      Nat.lt_of_le_of_lt (Nat.sub_le _ _) h.size_lt⟩
    simp [partly, hs] at hb
  case full =>
    rintro p w (e | b) - - - ih h hs q c hq
    · cases hq
    · cases hq
      refine ih ⟨⟨fun hb => ?_, h.inv.read_le, h.inv.length_lt⟩, h.size_lt⟩ hs b.1 b.2 rfl
      simp [hs] at hb

theorem plainStep_chunkSize (hp : p.plain = true) (w : Bytes) :
    (p.plainStep w).1.chunkSize = p.chunkSize := by
  rcases plain_cases hp with ⟨-, he⟩ | ⟨-, he⟩ | ⟨-, he⟩
  · rw [he]
    rcases parseRequestLine_cases p w with ⟨-, hr⟩ | ⟨i, -, -, hr⟩ | ⟨i, r, -, -, hr⟩ <;> rw [hr]
  · obtain ⟨r, st, len, ch, hr⟩ := parseHeaders_frame p w
    rw [he, hr]
  · rw [he]
    unfold parseBody
    simp only
    split <;> rfl

theorem state_cases (p : HttpParser) :
    p.plain = true ∨ p.state = .chunkedBody ∨ p.state = .done ∨ p.state = .error := by
  unfold HttpParser.plain
  cases p.state <;> simp

theorem dispatch_stopped (h : p.state = .done ∨ p.state = .error) (w beyond : Bytes) :
    p.dispatch w beyond = .ok (p, 0) := by
  unfold dispatch
  rcases h with h | h <;> rw [h]

theorem kept_sound : parserMachine.Kept Sound := by
  intro p q call h hs
  cases call with
  | dispatch w beyond =>
    obtain ⟨⟨q', c⟩, hq, rfl⟩ := Option.map_eq_some_iff.mp hs
    have hd : p.dispatch w beyond = .ok (q', c) := by
      cases hr : p.dispatch w beyond with
      | error e => rw [hr] at hq; cases hq
      | ok a => rw [hr] at hq; cases hq; rfl
    rcases state_cases p with hp | hst | hst
    · rw [dispatch_plain hp, Except.ok.injEq] at hd
      have hI := keep_inv h.inv hp w
      have hc := plainStep_chunkSize hp w
      rw [hd] at hI hc
      exact ⟨hI, hc ▸ h.size_lt⟩
    · rw [dispatch_chunked hst] at hd
      exact sound_chunked h hst hd
    · rw [dispatch_stopped hst] at hd; cases hd; exact h
  | reset => cases hs; exact sound_new
  | takeRequest => cases hs; exact ⟨⟨h.inv.before, h.inv.read_le, h.inv.length_lt⟩, h.size_lt⟩

theorem Sound.inside_iff (h : Sound p) (w : Bytes) : StaysInside p w ↔ SizesInside p w := by
  rcases state_cases p with hp | hs | hst
  · refine iff_of_true (stays_inside_plain h.inv hp w) fun hs => ?_
    unfold HttpParser.plain at hp
    rw [hs] at hp; cases hp
  · constructor
    · rintro ⟨q, c, -, hq, -⟩ -
      exact sizesFit_of_ok h.size_lt (dispatch_chunked hs w [] ▸ hq [])
    · intro hfit
      obtain ⟨q, c, d, hq, hrest⟩ := (hfit hs).inside rfl rfl
      exact ⟨q, c, d, fun beyond => dispatch_chunked hs w beyond ▸ hq beyond, hrest⟩
  · refine iff_of_true
      ⟨p, 0, [], dispatch_stopped hst w, Nat.zero_le _, by simp, List.nil_sublist w⟩ fun hs => ?_
    rw [hs] at hst
    simp at hst

def CallStaysInside (p : HttpParser) : ParserCall → Prop
  | .dispatch w _ => StaysInside p w
  | _ => True

def CallSizesInside (p : HttpParser) : ParserCall → Prop
  | .dispatch w _ => SizesInside p w
  | _ => True

/-- **Exactly when the parser stays inside its window.** Along every run of calls, and
at every window in every state a run reaches. -/
theorem stays_inside_iff (calls : List ParserCall) :
    (parserMachine.Each CallStaysInside calls ↔ parserMachine.Each CallSizesInside calls) ∧
    ∀ p, parserMachine.run calls = some p → ∀ w, StaysInside p w ↔ SizesInside p w := by
  refine ⟨Machine.each_congr sound_new kept_sound (fun {p call} h => ?_) calls, fun p hp w => ?_⟩
  · cases call with
    | dispatch w beyond => exact h.inside_iff w
    | reset => exact Iff.rfl
    | takeRequest => exact Iff.rfl
  · exact (Machine.invariant sound_new kept_sound hp : Sound p).inside_iff w

/-- A chunk size of `2^64 - 1`: `chunk_size_ + 2` is 1, and `append` throws. -/
theorem chunk_size_wraps :
    ∃ p, parserMachine.run [.dispatch (bytes "POST / HTTP/1.1\r\n") [],
        .dispatch (bytes "Transfer-Encoding: chunked\r\n\r\n") []] = some p ∧
      p.dispatch (bytes "ffffffffffffffff\r\nX") [] = .error .lengthError ∧
      ¬ StaysInside p (bytes "ffffffffffffffff\r\nX") := by
  let head : List ParserCall := [.dispatch (bytes "POST / HTTP/1.1\r\n") [],
    .dispatch (bytes "Transfer-Encoding: chunked\r\n\r\n") []]
  have hrun : (parserMachine.run head).map (fun p => (p.state, p.readingChunkSize)) =
    some (.chunkedBody, true) := by decide +kernel
  obtain ⟨p, hp, hpair⟩ := Option.map_eq_some_iff.mp hrun
  obtain ⟨hs, hr⟩ := Prod.mk.inj hpair
  have hthrow : p.dispatch (bytes "ffffffffffffffff\r\nX") [] = .error .lengthError := by
    rw [dispatch_chunked hs, parseChunkedBody_size hr (i := 16) (n := 2 ^ 64 - 1) (by decide)
      (by decide +kernel) (by decide), parseChunkedBody_overflow rfl (by decide)
      (show 2 ^ 64 - 1 < sizeMod by decide) (show appendLimit ≤ 2 ^ 64 - 1 by decide)]
    rfl
  refine ⟨p, hp, hthrow, ?_⟩
  rintro ⟨q, c, d, hq, -⟩
  rw [hq] at hthrow
  cases hthrow

end Hound.Http
